import SimpleBasicComponents.WebServer.Model

/-!
The `status` of a slot as a mirror of the kernel's interest set.

Owns: the calls on the registry of one slot with an open descriptor, and the
exact condition under which `status` and the interest set agree after every
call. `nty_event_add` writes `status` and `events` before the `epoll_ctl` that
may fail, and does not take them back.
-/

namespace SimpleBasicComponents.WebServer

open SimpleBasicComponents.Semantics

namespace Registry

inductive Call where
  | set (callback : Callback)
  | add (events : Int) (fails : Bool)
  | del
deriving DecidableEq, Repr

/-- A call of `nty_event_add`, with the slot's `status` and `events` before and after it. -/
inductive Event where
  | added (before after : Int × Int) (result : Int)
deriving DecidableEq, Repr

def mirror (slot : Slot) : Int × Int := (slot.ev.status, slot.ev.events)

def step (slot : Slot) : Call → Option (Slot × List Event)
  | .set callback => some (ntyEventSet slot slot.ev.fd callback, [])
  | .add events fails =>
      let (next, result) := ntyEventAdd slot events fails
      some (next, [.added (mirror slot) (mirror next) result])
  | .del => some ((ntyEventDel slot).1, [])

def machine (fd : Int) : Machine Slot Call Event where
  start := { ev := { fd := fd } }
  step := step

/-- `status` says what the kernel has, and a failed call has changed nothing. -/
structure Mirrored (slot : Slot) (events : List Event) : Prop where
  status : slot.ev.status = 1 ↔ slot.registered = true
  unchanged : ∀ before after, .added before after (-1) ∈ events → after = before

/-- An ADD goes through; a MOD goes through or asks for what the slot has already. -/
def Harmless (slot : Slot) : Call → Prop
  | .add events fails => fails = true → slot.ev.status = 1 ∧ slot.ev.events = events
  | _ => True

variable {slot : Slot} {events : List Event}

theorem ntyEventAdd_eq (agrees : slot.ev.status = 1 ↔ slot.registered = true) (wanted : Int) (fails : Bool) :
    ntyEventAdd slot wanted fails =
      (⟨{ slot.ev with events := wanted, status := 1 }, slot.registered || !fails⟩,
        if fails then -1 else 0) := by
  obtain ⟨ev, registered⟩ := slot
  obtain ⟨fd, held, callback, status, buffer, length, method, resource, retCode⟩ := ev
  cases registered with
  | true =>
      obtain rfl : status = 1 := agrees.mpr rfl
      cases fails <;> rfl
  | false =>
      have unregistered : status ≠ 1 := fun same => absurd (agrees.mp same) (by simp)
      cases fails <;> simp [ntyEventAdd, epollCtl, unregistered]

theorem Mirrored.add_iff (mirrored : Mirrored slot events) (wanted : Int) (fails : Bool) :
    (∃ next shown, step slot (.add wanted fails) = some (next, shown) ∧ Mirrored next (events ++ shown)) ↔
      Harmless slot (.add wanted fails) := by
  have added := ntyEventAdd_eq mirrored.status wanted fails
  simp only [step, added, Option.some.injEq, Prod.mk.injEq, existsAndEq, and_true, true_and]
  cases fails with
  | false =>
      refine ⟨fun _ => by simp [Harmless], fun _ => ⟨by simp, ?_⟩⟩
      intro before after failed
      exact mirrored.unchanged before after (by simpa using failed)
  | true =>
      simp only [Harmless, true_imp_iff, if_true, Bool.not_true, Bool.or_false]
      constructor
      · intro after
        have same := after.unchanged _ _ (List.mem_append_right _ (List.mem_singleton_self _))
        have both := Prod.mk.inj same
        exact ⟨both.1.symm, both.2.symm⟩
      · rintro ⟨isOne, rfl⟩
        refine ⟨by simpa using mirrored.status.mp isOne, ?_⟩
        intro before after failed
        rcases List.mem_append.mp failed with earlier | now
        · exact mirrored.unchanged before after earlier
        · obtain ⟨rfl, rfl, -⟩ := Event.added.inj (List.mem_singleton.mp now)
          simp [mirror, isOne]

theorem Mirrored.del (mirrored : Mirrored slot events) : Mirrored (ntyEventDel slot).1 events := by
  refine ⟨?_, mirrored.unchanged⟩
  unfold ntyEventDel
  by_cases isOne : slot.ev.status = 1
  · simp [isOne, epollCtl, mirrored.status.mp isOne]
  · rw [if_pos isOne]
    exact mirrored.status

/-- The mirror is right after every call exactly when every `nty_event_add` of
the run is harmless. -/
theorem completes_mirrored_iff_harmless (fd : Int) (calls : List Call) :
    (machine fd).Completes Mirrored calls ↔ (machine fd).Guarded Harmless calls := by
  apply @Machine.completes_iff_guarded _ _ _ _ fun _ _ => True
  · exact ⟨trivial, by simp [machine], by simp⟩
  · intro slot events call _ mirrored
    cases call with
    | set callback =>
        refine ⟨fun _ => trivial, fun _ => ⟨_, [], rfl, mirrored.status, ?_⟩⟩
        simpa using mirrored.unchanged
    | add wanted fails => exact mirrored.add_iff wanted fails
    | del =>
        refine ⟨fun _ => trivial, fun _ => ⟨_, [], rfl, ?_⟩⟩
        rw [List.append_nil]
        exact mirrored.del
  · intros
    trivial

/-- A first ADD that fails leaves `status` at 1. -/
theorem failedAdd_not_mirrored : ¬ (machine 5).Completes Mirrored [.add epollin true] := by
  rintro ⟨-, always⟩
  have exec := (machine 5).exec_of_isSome [.add epollin true] rfl
  have status := (always.last exec).status.mp rfl
  exact absurd status (by decide)

end Registry

end SimpleBasicComponents.WebServer
