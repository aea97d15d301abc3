import Mathlib.Tactic.IntervalCases
import SimpleBasicComponents.TimeWheel.Model

/-!
The digits of a time.

Owns: the distance of a time ahead of the clock, the digits the wheel is indexed
by, and what `slotFor` and `shiftedList` compute in these terms. Level `i` is
indexed by the six bits from bit `8 + 6 * i` on.
-/

namespace SimpleBasicComponents.TimeWheel

open SimpleBasicComponents.Semantics

/-- How far the clock has to go until `expire`. -/
def distance (expire now : UInt32) : Nat := (expire - now).toNat

/-- The lowest bit of the digit of level `i`. -/
def shiftOf (i : Nat) : Nat := 8 + 6 * i

def digit (i : Nat) (time : UInt32) : Nat := time.toNat / 2 ^ shiftOf i % 64

section

variable {expire now : UInt32}

theorem distance_eq (expire now : UInt32) :
    distance expire now = (2 ^ 32 - now.toNat + expire.toNat) % 2 ^ 32 :=
  UInt32.toNat_sub expire now

theorem toNat_lt (time : UInt32) : time.toNat < 2 ^ 32 := time.toNat_lt

theorem succ_toNat (now : UInt32) : (now + 1).toNat = (now.toNat + 1) % 2 ^ 32 := UInt32.toNat_add now 1

theorem distance_succ (ahead : distance expire now ≠ 0) :
    distance expire (now + 1) + 1 = distance expire now := by
  rw [distance_eq] at ahead
  rw [distance_eq, distance_eq, succ_toNat]
  have := toNat_lt expire
  have := toNat_lt now
  omega

theorem distance_eq_zero : distance expire now = 0 ↔ expire = now := by
  rw [distance_eq, ← UInt32.toNat_inj]
  have := toNat_lt expire
  have := toNat_lt now
  omega

theorem mask_toNat (time : UInt32) : (time &&& timeNearMask).toNat = time.toNat % 256 := by
  rw [UInt32.toNat_and]
  exact Nat.and_two_pow_sub_one_eq_mod _ 8

theorem levelMask_toNat (time : UInt32) : (time &&& timeLevelMask).toNat = time.toNat % 64 := by
  rw [UInt32.toNat_and]
  exact Nat.and_two_pow_sub_one_eq_mod _ 6

theorem digit_toNat (i : Nat) (shift : UInt32) (isShift : shift.toNat = shiftOf i) (small : i < 4)
    (time : UInt32) : ((time >>> shift) &&& timeLevelMask).toNat = digit i time := by
  rw [levelMask_toNat, UInt32.toNat_shiftRight, Nat.shiftRight_eq_div_pow, isShift]
  have below : shiftOf i < 32 := by
    unfold shiftOf
    omega
  rw [Nat.mod_eq_of_lt below]
  rfl

/-- `add_node` goes by the distance, and within a level by a digit of the time. -/
theorem slotFor_cases (now expire : UInt32) :
    (distance expire now < 2 ^ 8 ∧ slotFor now expire = .near (expire.toNat % 256)) ∨
      ∃ i < 4, 2 ^ shiftOf i ≤ distance expire now ∧
        (i < 3 → distance expire now < 2 ^ shiftOf (i + 1)) ∧
        slotFor now expire = .t i (digit i expire) := by
  have first : expire - now < timeNear ↔ distance expire now < 2 ^ 8 := UInt32.lt_iff_toNat_lt
  have second : expire - now < 1 <<< (timeNearShift + timeLevelShift) ↔
      distance expire now < 2 ^ 14 := UInt32.lt_iff_toNat_lt
  have third : expire - now < 1 <<< (timeNearShift + 2 * timeLevelShift) ↔
      distance expire now < 2 ^ 20 := UInt32.lt_iff_toNat_lt
  have fourth : expire - now < 1 <<< (timeNearShift + 3 * timeLevelShift) ↔
      distance expire now < 2 ^ 26 := UInt32.lt_iff_toNat_lt
  unfold slotFor
  simp only [first, second, third, fourth, mask_toNat,
    digit_toNat 0 timeNearShift rfl (by decide),
    digit_toNat 1 (timeNearShift + timeLevelShift) rfl (by decide),
    digit_toNat 2 (timeNearShift + 2 * timeLevelShift) rfl (by decide),
    digit_toNat 3 (timeNearShift + 3 * timeLevelShift) rfl (by decide)]
  split
  · rename_i near
    exact .inl ⟨near, rfl⟩
  · rename_i notNear
    right
    split
    · rename_i level
      exact ⟨0, by decide, Nat.le_of_not_lt notNear, fun _ => level, rfl⟩
    · rename_i notFirst
      split
      · rename_i level
        exact ⟨1, by decide, Nat.le_of_not_lt notFirst, fun _ => level, rfl⟩
      · rename_i notSecond
        split
        · rename_i level
          exact ⟨2, by decide, Nat.le_of_not_lt notSecond, fun _ => level, rfl⟩
        · rename_i notThird
          exact ⟨3, by decide, Nat.le_of_not_lt notThird, fun three => absurd three (by decide), rfl⟩

/-! ### The list a shift moves -/

private theorem masked_eq_zero {mask : Nat} (bits : Nat) (isMask : mask = 2 ^ bits) (small : bits < 32)
    (ct : UInt32) : ct &&& UInt32.ofNat (mask - 1) = 0 ↔ ct.toNat % mask = 0 := by
  have le : mask ≤ 2 ^ 31 := by
    rw [isMask]
    exact Nat.pow_le_pow_right (by decide) (by omega)
  rw [← UInt32.toNat_inj, UInt32.toNat_and, UInt32.toNat_ofNat_of_lt' (by
    show mask - 1 < 2 ^ 32
    omega), isMask, Nat.and_two_pow_sub_one_eq_mod]
  rfl

/-- The state of the loop after `i` turns. -/
private def turnState (ct : UInt32) (i : Nat) : Nat × UInt32 × Nat :=
  (2 ^ shiftOf i, UInt32.ofNat (ct.toNat / 2 ^ shiftOf i), i)

private theorem turn_eq {ct : UInt32} {i : Nat} (small : i < 4) :
    timerShiftTurn ct (turnState ct i) =
      if ct.toNat % 2 ^ shiftOf i = 0 then
        if digit i ct ≠ 0 then .leave (some (i, digit i ct))
        else if i < 3 then .again (turnState ct (i + 1)) else .fault
      else .leave none := by
  have below : shiftOf i < 32 := by
    unfold shiftOf
    omega
  have tests := masked_eq_zero (shiftOf i) rfl below ct
  have fits : ct.toNat / 2 ^ shiftOf i < 2 ^ 32 :=
    Nat.lt_of_le_of_lt (Nat.div_le_self _ _) (toNat_lt ct)
  have time : (UInt32.ofNat (ct.toNat / 2 ^ shiftOf i)).toNat = ct.toNat / 2 ^ shiftOf i :=
    UInt32.toNat_ofNat_of_lt' fits
  have idx : (UInt32.ofNat (ct.toNat / 2 ^ shiftOf i) &&& timeLevelMask).toNat = digit i ct := by
    rw [levelMask_toNat, time, digit]
  have nextMask : 2 ^ shiftOf i * 64 = 2 ^ shiftOf (i + 1) := by
    rw [show shiftOf (i + 1) = shiftOf i + 6 from rfl, Nat.pow_add]
  have nextTime : UInt32.ofNat (ct.toNat / 2 ^ shiftOf i) >>> timeLevelShift =
      UInt32.ofNat (ct.toNat / 2 ^ shiftOf (i + 1)) := by
    rw [← UInt32.toNat_inj, UInt32.toNat_shiftRight, time, Nat.shiftRight_eq_div_pow, ← nextMask,
      ← Nat.div_div_eq_div_mul]
    symm
    exact UInt32.toNat_ofNat_of_lt' (Nat.lt_of_le_of_lt (Nat.div_le_self _ _) fits)
  have noOverflow : 2 ^ shiftOf (i + 1) < 2 ^ 31 ↔ i < 3 := by
    rw [Nat.pow_lt_pow_iff_right (by decide), shiftOf]
    omega
  simp only [timerShiftTurn, turnState, tests, idx, nextMask, noOverflow, nextTime]

/-- The lists a shift may have to move: those of a time that is over with the
shift. In the source the lists `t[i][0]` for `i < 3` are not among them. -/
def Moves (ct : UInt32) (i idx : Nat) : Prop :=
  i < 4 ∧ ct.toNat % 2 ^ shiftOf i = 0 ∧ digit i ct = idx ∧ (i < 3 → idx ≠ 0)

private theorem mod_shiftOf_of_le {time i j : Nat} (le : i ≤ j) (zero : time % 2 ^ shiftOf j = 0) :
    time % 2 ^ shiftOf i = 0 := by
  have divides : 2 ^ shiftOf i ∣ 2 ^ shiftOf j := by
    apply Nat.pow_dvd_pow
    unfold shiftOf
    omega
  exact Nat.mod_eq_zero_of_dvd (divides.trans (Nat.dvd_of_mod_eq_zero zero))

private theorem digit_eq_zero_of_lt {ct : UInt32} {i j : Nat} (less : i < j)
    (zero : ct.toNat % 2 ^ shiftOf j = 0) : digit i ct = 0 := by
  have next := mod_shiftOf_of_le (Nat.succ_le_of_lt less) zero
  obtain ⟨k, isMultiple⟩ := Nat.dvd_of_mod_eq_zero next
  have wider : 2 ^ shiftOf (i + 1) = 2 ^ shiftOf i * 64 := by
    rw [show shiftOf (i + 1) = shiftOf i + 6 from rfl, Nat.pow_add]
  rw [digit, isMultiple, Nat.succ_eq_add_one, wider, Nat.mul_assoc,
    Nat.mul_div_cancel_left _ (Nat.two_pow_pos _), Nat.mul_mod_right]

private theorem Moves.above {ct : UInt32} {i j idx : Nat} (moves : Moves ct j idx) (small : i < 4)
    (lower : ∀ k < i, digit k ct = 0) :
    i ≤ j ∧ ct.toNat % 2 ^ shiftOf i = 0 ∧ (digit i ct ≠ 0 → j = i) := by
  obtain ⟨smallJ, zero, isDigit, notZero⟩ := moves
  have le : i ≤ j := by
    by_contra below
    exact notZero (by omega) (isDigit ▸ lower j (by omega))
  refine ⟨le, mod_shiftOf_of_le le zero, ?_⟩
  intro some
  by_contra different
  exact some (digit_eq_zero_of_lt (by omega) zero)

/-- The loop ends, on a level up to 3 and without overflow. -/
private theorem loop_eq_some {ct : UInt32} (notZero : ct ≠ 0) (i turns : Nat) (last : i + turns = 3)
    (lower : ∀ j < i, digit j ct = 0) :
    ∃ target, loop (timerShiftTurn ct) (turns + 2) (turnState ct i) = some target ∧
      ∀ j idx, target = some (j, idx) ↔ Moves ct j idx := by
  have small : i < 4 := by omega
  have turn : timerShiftTurn ct (turnState ct i) = _ := turn_eq small
  by_cases zero : ct.toNat % 2 ^ shiftOf i = 0
  · by_cases isZero : digit i ct = 0
    · have notLast : i < 3 := by
        by_contra isLast
        apply notZero
        obtain rfl : i = 3 := by omega
        rw [← UInt32.toNat_inj]
        simp only [digit, shiftOf] at zero isZero
        have := toNat_lt ct
        show ct.toNat = 0
        omega
      obtain ⟨turns, rfl⟩ : ∃ more, turns = more + 1 := ⟨turns - 1, by omega⟩
      rw [if_pos zero, if_neg (not_not.mpr isZero), if_pos notLast] at turn
      rw [loop_again turn]
      apply loop_eq_some notZero (i + 1) turns (by omega)
      intro j less
      rcases Nat.lt_succ_iff_lt_or_eq.mp less with below | rfl
      · exact lower j below
      · exact isZero
    · rw [if_pos zero, if_pos isZero] at turn
      refine ⟨some (i, digit i ct), loop_leave turn, fun j idx => ⟨?_, ?_⟩⟩
      · rintro same
        obtain ⟨rfl, rfl⟩ := Prod.mk.inj (Option.some.inj same)
        exact ⟨small, zero, rfl, fun _ => isZero⟩
      · intro moves
        obtain rfl := (moves.above small lower).2.2 isZero
        rw [moves.2.2.1]
  · rw [if_neg zero] at turn
    refine ⟨none, loop_leave turn, fun j idx => ⟨?_, ?_⟩⟩
    · rintro ⟨⟩
    · intro moves
      exact absurd (moves.above small lower).2.1 zero

/-- A shift finds out which list to move. -/
theorem shiftedList_eq_some (ct : UInt32) :
    ∃ target, shiftedList ct = some target ∧ ∀ i idx, target = some (i, idx) ↔ Moves ct i idx := by
  by_cases isZero : ct = 0
  · subst isZero
    refine ⟨some (3, 0), rfl, fun i idx => ⟨?_, ?_⟩⟩
    · rintro same
      obtain ⟨rfl, rfl⟩ := Prod.mk.inj (Option.some.inj same)
      exact ⟨by decide, rfl, rfl, by decide⟩
    · rintro ⟨small, -, isDigit, notZero⟩
      have digitZero : digit i 0 = 0 := by simp [digit]
      rw [digitZero] at isDigit
      subst isDigit
      obtain rfl : i = 3 := by
        by_contra notLast
        exact notZero (by omega) rfl
      rfl
  · have started : (256, ct >>> timeNearShift, 0) = turnState ct 0 := by
      have shifted : ct >>> timeNearShift = UInt32.ofNat (ct.toNat / 2 ^ shiftOf 0) := by
        rw [← UInt32.toNat_inj, UInt32.toNat_shiftRight, Nat.shiftRight_eq_div_pow]
        symm
        exact UInt32.toNat_ofNat_of_lt' (Nat.lt_of_le_of_lt (Nat.div_le_self _ _) (toNat_lt ct))
      rw [turnState, ← shifted]
      rfl
    rw [shiftedList, if_neg isZero, started]
    exact loop_eq_some isZero 0 3 rfl (by simp)

/-! ### Where a waiting node may be -/

/-- The lists no shift ever moves. -/
def Stuck : Slot → Prop
  | .near _ => False
  | .t i idx => i < 3 ∧ idx = 0

instance (slot : Slot) : Decidable (Stuck slot) := by
  cases slot <;> unfold Stuck <;> infer_instance

/-- A node in a list of a level comes by when the clock has the digits of its
`expire` down to that level; that is still ahead, unless the list is stuck. -/
def Fits (now expire : UInt32) : Slot → Prop
  | .near idx => idx = expire.toNat % 256 ∧ distance expire now < 2 ^ 8
  | .t i idx => i < 4 ∧ idx = digit i expire ∧ (Stuck (.t i idx) ∨
      expire.toNat % 2 ^ shiftOf i < distance expire now ∧
        (i < 3 → distance expire now < 2 ^ shiftOf (i + 1)))

theorem fits_slotFor (now expire : UInt32) : Fits now expire (slotFor now expire) := by
  rcases slotFor_cases now expire with ⟨near, isNear⟩ | ⟨i, small, le, less, isLevel⟩
  · rw [isNear]
    exact ⟨rfl, near⟩
  · rw [isLevel]
    exact ⟨small, rfl, .inr ⟨Nat.lt_of_lt_of_le (Nat.mod_lt _ (Nat.two_pow_pos _)) le, less⟩⟩

/-- The node has as far to go as the digits below its level say, when its list
is moved. -/
theorem Fits.moved {i idx : Nat} (fits : Fits now expire (.t i idx)) (moves : Moves (now + 1) i idx) :
    distance expire (now + 1) = expire.toNat % 2 ^ shiftOf i := by
  obtain ⟨small, isDigit, stuck | ⟨ahead, less⟩⟩ := fits
  · exact absurd stuck.2 (moves.2.2.2 stuck.1)
  · obtain ⟨-, zero, sameDigit, -⟩ := moves
    have succ := distance_succ (Nat.ne_zero_of_lt ahead)
    have := toNat_lt expire
    have := toNat_lt (now + 1)
    have := distance_eq expire (now + 1)
    interval_cases i <;> simp only [digit, shiftOf] at * <;> omega

/-- A shift that does not move the node's list leaves it fitting. -/
theorem Fits.shift {slot : Slot} (fits : Fits now expire slot)
    (ahead : ∀ idx, slot = .near idx → distance expire now ≠ 0)
    (unmoved : ∀ i idx, slot = .t i idx → ¬ Moves (now + 1) i idx) :
    Fits (now + 1) expire slot := by
  cases slot with
  | near idx =>
      have succ := distance_succ (ahead idx rfl)
      exact ⟨fits.1, by have near := fits.2; omega⟩
  | t i idx =>
      obtain ⟨small, isDigit, stuck | ⟨below, less⟩⟩ := fits
      · exact ⟨small, isDigit, .inl stuck⟩
      · by_cases isStuck : Stuck (.t i idx)
        · exact ⟨small, isDigit, .inl isStuck⟩
        · have succ := distance_succ (Nat.ne_zero_of_lt below)
          refine ⟨small, isDigit, .inr ⟨?_, fun three => by have := less three; omega⟩⟩
          have notMoved := unmoved i idx rfl
          by_contra reached
          have isNow : distance expire (now + 1) = expire.toNat % 2 ^ shiftOf i := by omega
          apply notMoved
          have := toNat_lt expire
          have := toNat_lt (now + 1)
          have := distance_eq expire (now + 1)
          refine ⟨small, ?_, ?_, fun three zero => isStuck ⟨three, zero⟩⟩
          · interval_cases i <;> simp only [shiftOf] at * <;> omega
          · interval_cases i <;> simp only [digit, shiftOf] at * <;> omega

/-- A moved node goes strictly below its level, and not to a stuck list. -/
theorem slotFor_of_moved {i : Nat} (small : i < 4)
    (isNow : distance expire now = expire.toNat % 2 ^ shiftOf i) :
    ¬ Stuck (slotFor now expire) ∧ ∀ j idx, slotFor now expire = .t j idx → j < i := by
  rcases slotFor_cases now expire with ⟨-, isNear⟩ | ⟨j, smallJ, le, less, isLevel⟩
  · rw [isNear]
    exact ⟨id, by simp⟩
  · have below : j < i := by
      have rest : distance expire now < 2 ^ shiftOf i := isNow ▸ Nat.mod_lt _ (Nat.two_pow_pos _)
      have powers := (Nat.pow_lt_pow_iff_right (by decide)).mp (Nat.lt_of_le_of_lt le rest)
      simp only [shiftOf] at powers
      omega
    rw [isLevel]
    refine ⟨?_, fun k idx same => by obtain ⟨rfl, -⟩ := Slot.t.inj same; exact below⟩
    rintro ⟨three, zero⟩
    have upper := less three
    interval_cases i <;> interval_cases j <;> simp only [digit, shiftOf] at * <;> omega

/-- In the list of the present moment are the nodes that expire now. -/
theorem Fits.expire_eq {time : UInt32} (fits : Fits time expire (.near (time &&& timeNearMask).toNat)) :
    expire = time := by
  obtain ⟨sameIndex, near⟩ := fits
  rw [mask_toNat] at sameIndex
  rw [← distance_eq_zero]
  rw [distance_eq] at near ⊢
  have := toNat_lt expire
  have := toNat_lt time
  omega

/-- A node that expires now is in the list of the present moment or in a stuck
list. -/
theorem Fits.of_distance_eq_zero {slot : Slot} (fits : Fits now expire slot)
    (isNow : distance expire now = 0) : Stuck slot ∨ slot = .near (now &&& timeNearMask).toNat := by
  cases slot with
  | near idx =>
      right
      rw [mask_toNat, fits.1, distance_eq_zero.mp isNow]
  | t i idx =>
      obtain ⟨-, -, stuck | ⟨ahead, -⟩⟩ := fits
      · exact .inl stuck
      · omega

end

end SimpleBasicComponents.TimeWheel
