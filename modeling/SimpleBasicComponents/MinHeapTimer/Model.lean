import Mathlib.Algebra.Group.Nat.Defs
import Mathlib.Data.List.Basic
import SimpleBasicComponents.Semantics.Loop
import SimpleBasicComponents.Semantics.Machine

/-!
The min-heap timer of `util/minheap-timer.{h,c}`.

Owns: the timer's block of entry pointers, the sift loops, `mhp_timer_push`,
`nhp_timer_pop` and `mhp_timer_top` as the source computes them, and a machine
whose labels are the calls. A cell of `list` is a pointer; reading through a
null pointer or outside the allocated bytes is a fault. A call that faults or
never returns is a refused step.

The entry's `id`, `shutdown` and `next` are never read and are left out. An
entry is known by `addr`, the ordinal of its allocation.
-/

namespace SimpleBasicComponents.MinHeapTimer

open SimpleBasicComponents.Semantics

structure TimerEntry where
  addr : Nat
  expire : UInt32
  callback : Nat
  arg : Nat
deriving DecidableEq, Repr

/-- `list` has one cell for each eight bytes allocated for it. -/
structure MhpTimer where
  list : List (Option TimerEntry)
  last : UInt32
  amount : UInt32
deriving DecidableEq, Repr

/-- Read through the pointer in a cell. -/
def deref (list : List (Option TimerEntry)) (index : UInt32) : Option TimerEntry :=
  list[index.toNat]?.join

/-- `swap_ptr`: exchange two cells. -/
def swapPtr (list : List (Option TimerEntry)) (left right : UInt32) :
    Option (List (Option TimerEntry)) :=
  match list[left.toNat]?, list[right.toNat]? with
  | some a, some b => some ((list.set left.toNat b).set right.toNat a)
  | _, _ => none

def timerEntryGreater (a b : TimerEntry) : Bool := b.expire < a.expire

def mhpTimerSizeMin : UInt32 := 9

/-- `realloc` is asked for `size` bytes, not for `size` pointers. -/
def realloc (list : List (Option TimerEntry)) (size : UInt32) : List (Option TimerEntry) :=
  let cells := size.toNat / 8
  list.take cells ++ List.replicate (cells - list.length) none

/-- `granted` is whether the underlying `realloc` succeeds. -/
def reserve (timer : MhpTimer) (n : UInt32) (granted : Bool) : Option MhpTimer :=
  if n > timer.amount then
    let size := if timer.amount * 2 > n then timer.amount * 2 else n
    if granted then some { timer with list := realloc timer.list size, amount := size } else none
  else some timer

/-- One turn of the loop of `adjust_up`. -/
def adjustUpTurn : List (Option TimerEntry) × UInt32 →
    Turn (List (Option TimerEntry) × UInt32) (List (Option TimerEntry))
  | (list, pos) =>
      let parent := (pos - 1) >>> 1
      if pos > 0 then
        match deref list parent, deref list pos with
        | some above, some entry =>
            if timerEntryGreater above entry then
              match swapPtr list parent pos with
              | some swapped => .again (swapped, parent)
              | none => .fault
            else .leave list
        | _, _ => .fault
      else .leave list

def adjustUp (fuel : Nat) (list : List (Option TimerEntry)) (pos : UInt32) :
    Option (List (Option TimerEntry)) :=
  loop adjustUpTurn fuel (list, pos)

/-- The child `adjust_down` goes on with. In `(pos+1)>>1 - 1` the subtraction
binds tighter than the shift. -/
def lowerChild (list : List (Option TimerEntry)) (pos : UInt32) : Option UInt32 :=
  let lchild := (pos + 1) >>> (1 - 1)
  let rchild := (pos + 1) >>> 1
  match deref list lchild, deref list rchild with
  | some left, some right => some (if timerEntryGreater left right then rchild else lchild)
  | _, _ => none

/-- One turn of the loop of `adjust_down`; the state is `list`, `pos`, `lower`. -/
def adjustDownTurn : List (Option TimerEntry) × UInt32 × UInt32 →
    Turn (List (Option TimerEntry) × UInt32 × UInt32) (List (Option TimerEntry))
  | (list, pos, lower) =>
      match deref list pos, deref list lower with
      | some entry, some below =>
          if timerEntryGreater entry below then
            match swapPtr list pos lower with
            | none => .fault
            | some swapped =>
                match lowerChild swapped lower with
                | some nextLower => .again (swapped, lower, nextLower)
                | none => .fault
          else .leave list
      | _, _ => .fault

def adjustDown (fuel : Nat) (list : List (Option TimerEntry)) (pos : UInt32) :
    Option (List (Option TimerEntry)) :=
  match lowerChild list pos with
  | some lower => loop adjustDownTurn fuel (list, pos, lower)
  | none => none

def mhpTimerCreate (size : UInt32) : MhpTimer :=
  let size := if size > mhpTimerSizeMin then size else mhpTimerSizeMin
  { list := List.replicate size.toNat none, last := 0, amount := size }

/-- The timer and the return value. `memory` and `granted` are whether `calloc`
and `realloc` succeed; `entry` is the new entry if they do. -/
def mhpTimerPush (fuel : Nat) (timer : MhpTimer) (entry : TimerEntry) (memory granted : Bool) :
    Option (MhpTimer × Int) :=
  if memory then
    match timer.list[0]? with
    | none => none
    | some none => some ({ timer with list := timer.list.set 0 (some entry) }, 0)
    | some (some _) =>
        match reserve timer (timer.last + 1) granted with
        | none => some (timer, -1)
        | some timer =>
            let last := timer.last + 1
            if last.toNat < timer.list.length then
              match adjustUp fuel (timer.list.set last.toNat (some entry)) last with
              | some list => some ({ timer with list, last }, 0)
              | none => none
            else none
  else some (timer, -1)

/-- The timer and `*entry`. The source returns no value. -/
def nhpTimerPop (fuel : Nat) (timer : MhpTimer) : Option (MhpTimer × Option TimerEntry) :=
  match timer.list[0]?, swapPtr timer.list 0 timer.last with
  | some entry, some swapped =>
      match adjustDown fuel swapped 0 with
      | some list => some ({ timer with list, last := timer.last - 1 }, entry)
      | none => none
  | _, _ => none

def mhpTimerTop (timer : MhpTimer) : Option TimerEntry := timer.list[0]?.join

/-! ### Calls -/

inductive Call where
  | push (expire : UInt32) (callback arg : Nat) (memory granted : Bool)
  | pop
deriving DecidableEq, Repr

inductive Event where
  | pushed (entry : TimerEntry)
  | popped (entry : Option TimerEntry)
deriving DecidableEq, Repr

/-- A timer and the number of allocations so far. -/
structure Session where
  timer : MhpTimer
  allocations : Nat
deriving DecidableEq, Repr

def step (fuel : Nat) (session : Session) : Call → Option (Session × List Event)
  | .push expire callback arg memory granted =>
      let entry : TimerEntry := ⟨session.allocations, expire, callback, arg⟩
      match mhpTimerPush fuel session.timer entry memory granted with
      | some (timer, result) =>
          some (⟨timer, session.allocations + 1⟩, if result = 0 then [.pushed entry] else [])
      | none => none
  | .pop =>
      match nhpTimerPop fuel session.timer with
      | some (timer, entry) => some (⟨timer, session.allocations⟩, [.popped entry])
      | none => none

def machine (fuel : Nat) (size : UInt32) : Machine Session Call Event where
  start := ⟨mhpTimerCreate size, 0⟩
  step := step fuel

end SimpleBasicComponents.MinHeapTimer
