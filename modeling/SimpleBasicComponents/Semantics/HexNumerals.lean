import SimpleBasicComponents.Semantics.CString
import Mathlib.Data.Nat.Digits.Defs

/-!
Hexadecimal numerals in text.

A digit is worth its place in the row of the sixteen digits, in either case, and
a numeral what its digits are worth in base 16, the first one first. A byte that
takes in the digits one by one, moving up four bits for each, holds the value of
the numeral modulo 256.
-/

namespace SimpleBasicComponents.Semantics

def lowerDigits : List UInt8 := ascii "0123456789abcdef"
def upperDigits : List UInt8 := ascii "0123456789ABCDEF"

/-- What a digit is worth; nothing, if the byte is not one. -/
def digitValue (char : UInt8) : Option Nat :=
  lowerDigits.idxOf? char <|> upperDigits.idxOf? char

/-- What a numeral is worth, which for no digits is zero. -/
def numeralValue (numeral : List UInt8) : Nat :=
  Nat.ofDigits 16 (numeral.filterMap digitValue).reverse

variable {char : UInt8} {numeral : List UInt8} {value worth : Nat}

/-- What is checked of the 256 codes is true of every byte. -/
theorem forall_byte {holds : UInt8 → Prop} (table : ∀ code < 256, holds (UInt8.ofNat code))
    (byte : UInt8) : holds byte := by
  have here := table byte.toNat byte.toNat_lt
  rwa [UInt8.ofNat_toNat] at here

theorem digitValue_lt (isDigit : digitValue char = some worth) : worth < 16 := by
  have inRow (row : List UInt8) (sixteen : row.length = 16) (found : row.idxOf? char = some worth) :
      worth < 16 := by
    have inside := (List.idxOf?_eq_some_iff.mp found).1
    rwa [sixteen] at inside
  unfold digitValue at isDigit
  cases lower : lowerDigits.idxOf? char with
  | some place =>
      rw [lower] at isDigit
      exact inRow lowerDigits rfl (lower.trans isDigit)
  | none =>
      rw [lower] at isDigit
      exact inRow upperDigits rfl isDigit

theorem numeralValue_nil : numeralValue [] = 0 := rfl

theorem numeralValue_snoc (isDigit : digitValue char = some worth) :
    numeralValue (numeral ++ [char]) = 16 * numeralValue numeral + worth := by
  unfold numeralValue
  rw [List.filterMap_append, List.filterMap_cons, isDigit, List.filterMap_nil, List.reverse_concat,
    Nat.ofDigits_cons]
  omega

/-- One more digit, in a byte. -/
theorem shift_or_digit (small : worth < 16) :
    UInt8.ofNat value <<< 4 ||| UInt8.ofNat worth = UInt8.ofNat (16 * value + worth) := by
  apply UInt8.toNat_inj.mp
  have up : (value % 256) <<< 4 % 256 = (value % 16) <<< 4 := by
    rw [Nat.shiftLeft_eq, Nat.shiftLeft_eq]
    omega
  have apart : (value % 16) <<< 4 + worth = (value % 16) <<< 4 ||| worth :=
    Nat.shiftLeft_add_eq_or_of_lt small _
  have isWorth : worth % 256 = worth := Nat.mod_eq_of_lt (by omega)
  rw [UInt8.toNat_or, UInt8.toNat_shiftLeft, UInt8.toNat_ofNat', UInt8.toNat_ofNat',
    UInt8.toNat_ofNat']
  show (value % 256) <<< 4 % 256 ||| worth % 256 = (16 * value + worth) % 256
  rw [up, isWorth, ← apart, Nat.shiftLeft_eq]
  omega

/-! ### Bytes in two digits -/

/-- Two digits for the byte, the upper half first, each in either case. -/
def SpelledBy (byte : UInt8) (numeral : List UInt8) : Prop :=
  ∃ high low, numeral = [high, low] ∧ digitValue high = some (byte.toNat / 16) ∧
    digitValue low = some (byte.toNat % 16)

/-- The byte in the digits of one row. -/
def spelled (row : List UInt8) (byte : UInt8) : List UInt8 :=
  [row.getD (byte.toNat / 16) 0, row.getD (byte.toNat % 16) 0]

theorem SpelledBy.numeralValue_eq {byte : UInt8} (spells : SpelledBy byte numeral) :
    numeralValue numeral = byte.toNat := by
  obtain ⟨high, low, isNumeral, isHigh, isLow⟩ := spells
  have split : numeral = ([] ++ [high]) ++ [low] := isNumeral
  rw [split, numeralValue_snoc isLow, numeralValue_snoc isHigh, numeralValue_nil]
  omega

theorem SpelledBy.digits {byte : UInt8} (spells : SpelledBy byte numeral) :
    ∀ char ∈ numeral, (digitValue char).isSome := by
  obtain ⟨high, low, isNumeral, isHigh, isLow⟩ := spells
  rw [isNumeral]
  simp [isHigh, isLow]

theorem spelledBy_spelled {row : List UInt8} (isRow : row ∈ [lowerDigits, upperDigits])
    (byte : UInt8) : SpelledBy byte (spelled row byte) := by
  have table : ∀ row ∈ [lowerDigits, upperDigits], ∀ worth < 16,
      digitValue (row.getD worth 0) = some worth := by decide +kernel
  have high := table row isRow (byte.toNat / 16) (by have := byte.toNat_lt; omega)
  have low := table row isRow (byte.toNat % 16) (Nat.mod_lt _ (by decide))
  exact ⟨_, _, rfl, high, low⟩

end SimpleBasicComponents.Semantics
