import Mathlib.Algebra.Group.Nat.Defs
import Mathlib.Data.List.Rotate
import SimpleBasicComponents.Semantics.Machine

/-!
The ring buffer of `util/ringbuf.{h,c}`.

Owns: `ringbuff_create`, `ringbuff_write`, `ringbuff_read`,
`ringbuffer_readline` and `ringbuff_clear` as the source computes them, and a
machine whose labels are the calls. A byte outside the array is a fault.

`malloc` grants no more than `PTRDIFF_MAX` bytes, so no sum of two positions
leaves `size_t`, and the positions are natural numbers. The error number
`RINGBUFF_ERR` is never read and is left out.
-/

namespace SimpleBasicComponents.RingBuffer

open SimpleBasicComponents.Semantics

def ptrdiffMax : Nat := 2 ^ 63 - 1

/-- `size` is the length of the array. A new buffer has its tail behind the end. -/
structure Ringbuf where
  buff : List UInt8
  head : Nat
  tail : Nat
  granted : buff.length ≤ ptrdiffMax
  headInside : head < buff.length
  tailInside : tail ≤ buff.length
deriving DecidableEq, Repr

def newline : UInt8 := 10

namespace Ringbuf

def size (r : Ringbuf) : Nat := r.buff.length

theorem size_pos (r : Ringbuf) : 0 < r.size := Nat.zero_lt_of_lt r.headInside

def isEmpty (r : Ringbuf) : Bool := r.head = r.tail

def getUseSize (r : Ringbuf) : Nat := (r.size + r.tail - r.head) % r.size

def getRemain (r : Ringbuf) : Nat := r.size - r.getUseSize

end Ringbuf

def ringbuffCreate (size : Nat) (positive : 0 < size) (granted : size ≤ ptrdiffMax) : Ringbuf where
  buff := List.replicate size 0
  head := 0
  tail := size
  granted := by simpa using granted
  headInside := by simpa using positive
  tailInside := by simp

/-- Conversion of a `size_t` to `int`. -/
def toInt (n : Nat) : Int := (n : Int).bmod (2 ^ 32)

/-- The copy goes to `get_startptr`, as the one of `ringbuff_read` comes from it. -/
def ringbuffWrite (r : Ringbuf) (data : List UInt8) : Option (Ringbuf × Int) :=
  if data.length > r.getRemain then some (r, -1)
  else if within : r.head + data.length ≤ r.size then
    some
      ({ r with
          buff := r.buff.take r.head ++ data ++ r.buff.drop (r.head + data.length)
          tail := (r.tail + data.length) % r.size
          granted := by
            have granted := r.granted
            simp only [Ringbuf.size, List.length_append, List.length_take, List.length_drop] at within ⊢
            omega
          headInside := by
            have inside := r.headInside
            simp only [Ringbuf.size, List.length_append, List.length_take, List.length_drop] at within ⊢
            omega
          tailInside := by
            have below := Nat.mod_lt (r.tail + data.length) r.size_pos
            simp only [Ringbuf.size, List.length_append, List.length_take, List.length_drop] at *
            omega },
        0)
  else none

/-- The buffer, the return value and the bytes copied to `buf`. -/
def ringbuffRead (r : Ringbuf) (rSz bufSz : Nat) : Option (Ringbuf × Int × List UInt8) :=
  if rSz > bufSz then some (r, -1, [])
  else if rSz > r.getUseSize then some (r, -1, [])
  else if r.head + rSz ≤ r.size then
    some
      ({ r with
          head := (r.head + rSz) % r.size
          headInside := Nat.mod_lt _ r.size_pos },
        toInt rSz, (r.buff.drop r.head).take rSz)
  else none

/-- The loop of `ringbuffer_readline`, with the number of turns its two bounds leave. -/
def linePos (r : Ringbuf) : Nat → Nat → Option Nat
  | pos, 0 => some pos
  | pos, left + 1 =>
      match r.buff[r.head + pos]? with
      | some byte => if byte = newline then some pos else linePos r (pos + 1) left
      | none => none

def ringbufferReadline (r : Ringbuf) (bufSz : Nat) : Option (Ringbuf × Int × List UInt8) :=
  if r.isEmpty || bufSz = 0 then some (r, 0, [])
  else
    match linePos r 0 (min r.getUseSize bufSz) with
    | some pos => ringbuffRead r (pos + 1) bufSz
    | none => none

def ringbuffClear (r : Ringbuf) : Ringbuf :=
  { r with
    tail := r.head
    tailInside := Nat.le_of_lt r.headInside }

/-! ### Calls -/

inductive Call where
  | write (data : List UInt8)
  | read (rSz bufSz : Nat)
  | readline (bufSz : Nat)
  | clear
deriving DecidableEq, Repr

inductive Event where
  | wrote (data : List UInt8)
  | read (bytes : List UInt8)
deriving DecidableEq, Repr

/-- The bytes of `buf` that a return value tells the caller to take. -/
def returned (result : Int) (bytes : List UInt8) : List UInt8 := bytes.take result.toNat

def showRead : Ringbuf × Int × List UInt8 → Ringbuf × List Event
  | (next, result, bytes) => (next, [.read (returned result bytes)])

def step (r : Ringbuf) : Call → Option (Ringbuf × List Event)
  | .write data =>
      match ringbuffWrite r data with
      | some (next, result) => some (next, if result = 0 then [.wrote data] else [])
      | none => none
  | .read rSz bufSz => (ringbuffRead r rSz bufSz).map showRead
  | .readline bufSz => (ringbufferReadline r bufSz).map showRead
  | .clear => some (ringbuffClear r, [])

def machine (start : Ringbuf) : Machine Ringbuf Call Event where
  start := start
  step := step

end SimpleBasicComponents.RingBuffer
