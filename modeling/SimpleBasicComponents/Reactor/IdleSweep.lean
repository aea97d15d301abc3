import Mathlib.Tactic.SplitIfs
import SimpleBasicComponents.Reactor.Slots
import SimpleBasicComponents.Semantics.History

/-!
Which descriptors the idle sweep closes.

Owns: the condition that it closes only the descriptors of clients that have been
idle for 60 seconds, and the exact runs in which it does. Nothing sets the time of
a listening socket again after it has been added, and the sweep looks at its slot
like at any other.
-/

namespace SimpleBasicComponents.Reactor

open SimpleBasicComponents.Semantics

/-- What the sweep closes is a client's, last used at least 60 seconds before. -/
def Idle (earlier : List Event) : Event → Prop
  | .swept fd now => ∃ time, lastUse fd earlier = some (.client time) ∧ 60 ≤ now - time
  | _ => True

/-- The slot is not that of a listening socket added 60 seconds ago or longer. -/
def Ntyreactor.SparesAt (reactor : Ntyreactor) (now : Int) (slot : Nat) : Prop :=
  (reactor.events slot).status = 1 → (reactor.events slot).callback = some .acceptCb →
    now - (reactor.events slot).lastActive < 60

/-- The sweep, when there is one, comes by no such slot. -/
def Spares (reactor : Ntyreactor) : Call → Prop
  | .sweep now => ∀ turn < 100, reactor.SparesAt now ((reactor.checkpos + turn) % maxEpollEvents)
  | _ => True

theorem idle_swept_iff {earlier : List Event} {fd : Nat} {now : Int} :
    Idle earlier (.swept fd now) ↔ ∃ time, lastUse fd earlier = some (.client time) ∧ 60 ≤ now - time :=
  Iff.rfl

variable {taken : Nat → Bool} {reactor next : Ntyreactor} {events shown : List Event} {calls : List Call}

/-! ### The times of earlier uses -/

def Event.time : Event → Option Int
  | .accepted _ time _ | .received _ time | .sent _ time => some time
  | .listening _ | .refused _ | .closed _ | .swept _ _ | .outside _ => none

theorem time_of_useOf {fd : Nat} {event : Event} {time : Int} (isUse : useOf fd event = some (.client time)) :
    event.time = some time := by
  cases event <;> simp_all [useOf, Event.time]

/-- If the clock is never set back, an idle descriptor has not been used at all in
the 60 seconds, neither by this client nor by an earlier one. -/
theorem Idle.unused {fd : Nat} {now : Int} (idle : Idle events (.swept fd now))
    (ordered : events.Pairwise fun before after =>
      ∀ first ∈ before.time, ∀ second ∈ after.time, first ≤ second)
    {event : Event} (member : event ∈ events) {time : Int} (isUse : useOf fd event = some (.client time)) :
    60 ≤ now - time := by
  obtain ⟨last, isLast, old⟩ := idle
  unfold lastUse at isLast
  obtain ⟨later, lastEvent, before, split, isLastUse, noUse⟩ := List.findSome?_eq_some_iff.mp isLast
  have order := List.pairwise_reverse.mpr ordered
  rw [split] at order
  have atLast := (List.pairwise_cons.mp (List.pairwise_append.mp order).2.1).1
  rw [← List.mem_reverse, split, List.mem_append, List.mem_cons] at member
  rcases member with among | rfl | earlier
  · rw [noUse event among] at isUse
    contradiction
  · rw [isUse] at isLastUse
    cases isLastUse
    exact old
  · have notAfter := atLast event earlier time (time_of_useOf isUse) last (time_of_useOf isLastUse)
    omega

/-! ### One turn of the sweep -/

theorem Kept.pos_eq (kept : Kept taken reactor events) : reactor.pos = reactor.checkpos % maxEpollEvents := by
  have position := kept.position
  unfold Ntyreactor.pos
  split_ifs with atEnd
  · rw [atEnd, Nat.mod_self]
  · exact (Nat.mod_eq_of_lt (by omega)).symm

theorem checkSlot_checkpos (reactor : Ntyreactor) (now : Int) :
    (checkSlot reactor now).1.checkpos = reactor.pos + 1 := by
  unfold checkSlot
  rw [← Ntyreactor.pos]
  simp only
  split_ifs <;> rfl

/-- A turn changes no slot but its own. -/
theorem checkSlot_events {now : Int} {slot : Nat} (different : slot ≠ reactor.pos) :
    (checkSlot reactor now).1.events slot = reactor.events slot := by
  unfold checkSlot
  rw [← Ntyreactor.pos]
  simp only
  split_ifs
  · rfl
  · exact Function.update_of_ne different _ _
  · rfl

theorem Kept.checkSlot_idle (kept : Kept taken reactor events) (now : Int) :
    Historically Idle (events ++ (Reactor.checkSlot reactor now).2) ↔
      Historically Idle events ∧ reactor.SparesAt now reactor.pos := by
  unfold Reactor.checkSlot
  rw [← Ntyreactor.pos]
  simp only
  split_ifs with free old
  · rw [List.append_nil]
    exact (and_iff_left fun inUse => absurd inUse free).symm
  · have inUse := not_not.mp free
    rw [historically_snoc_iff, kept.number _ inUse]
    apply and_congr_right
    intro _
    unfold Ntyreactor.SparesAt
    rw [idle_swept_iff, kept.use _ inUse, Ntyevent.use]
    split_ifs with isListener
    · constructor
      · rintro ⟨time, same, -⟩
        simp at same
      · intro spares
        have recent := spares inUse isListener
        omega
    · constructor
      · intro _ _ listens
        contradiction
      · intro _
        exact ⟨_, rfl, old⟩
  · rw [List.append_nil]
    exact (and_iff_left fun _ _ => by omega).symm

/-! ### Whole sweeps and whole runs -/

/-- `count` is at most number of slots, so the sweep comes by no slot twice. -/
theorem Kept.checkSlots_idle (kept : Kept taken reactor events) (now : Int) {count : Nat}
    (few : count ≤ maxEpollEvents) :
    Historically Idle (events ++ (Reactor.checkSlots now count reactor).2) ↔
      Historically Idle events ∧
        ∀ turn < count, reactor.SparesAt now ((reactor.checkpos + turn) % maxEpollEvents) := by
  induction count generalizing reactor events with
  | zero => simp [Reactor.checkSlots]
  | succ count inductionHypothesis =>
      have rest := inductionHypothesis (kept.checkSlot now) (by omega)
      have below := kept.pos_lt
      have same (turn : Nat) (inTime : turn < count) :
          (Reactor.checkSlot reactor now).1.SparesAt now
              (((Reactor.checkSlot reactor now).1.checkpos + turn) % maxEpollEvents) ↔
            reactor.SparesAt now ((reactor.checkpos + (turn + 1)) % maxEpollEvents) := by
        have place : (reactor.pos + 1 + turn) % maxEpollEvents =
            (reactor.checkpos + (turn + 1)) % maxEpollEvents := by
          rw [kept.pos_eq]
          unfold maxEpollEvents
          omega
        have different : (reactor.pos + 1 + turn) % maxEpollEvents ≠ reactor.pos := by
          unfold maxEpollEvents at few below ⊢
          omega
        rw [checkSlot_checkpos, ← place]
        unfold Ntyreactor.SparesAt
        rw [checkSlot_events different]
      rw [List.append_assoc] at rest
      rw [checkSlots_succ, rest, kept.checkSlot_idle, Nat.forall_lt_succ_left, and_assoc, Nat.add_zero, ← kept.pos_eq]
      apply and_congr_right
      intro _
      apply and_congr_right
      intro _
      exact forall₂_congr same

theorem Event.OfConnection.idle {event : Event} (ofConnection : event.OfConnection)
    (earlier : List Event) : Idle earlier event := by
  cases event with
  | received | sent | closed => trivial
  | listening | accepted | refused | swept | outside => contradiction

/-- Only the sweep shows that anything has been swept. -/
theorem Stepped.idle {call : Call} {outcome : Ntyreactor × List Event} (stepped : Stepped reactor call outcome)
    (noSweep : ∀ now, call ≠ .sweep now) : ∀ earlier, ∀ event ∈ outcome.2, Idle earlier event := by
  intro earlier event member
  cases stepped with
  | addListener time isFree =>
      rw [Reactor.addListener, List.mem_singleton] at member
      exact member ▸ trivial
  | noClient => exact absurd member List.not_mem_nil
  | accept slot nonblocking time isFree =>
      unfold acceptCb at member
      simp only at member
      split at member
      · rcases List.mem_pair.mp member with rfl | rfl <;> trivial
      · split_ifs at member <;> exact List.mem_singleton.mp member ▸ trivial
  | recv received time inUse => exact (recvCb_shown member).idle earlier
  | send sent time inUse => exact (sendCb_shown member).idle earlier
  | sweep now => exact absurd rfl (noSweep now)

theorem Kept.step_idle (kept : Kept taken reactor events) {call : Call} {outcome : Ntyreactor × List Event}
    (stepped : Stepped reactor call outcome) :
    Historically Idle (events ++ outcome.2) ↔ Historically Idle events ∧ Spares reactor call := by
  by_cases isSweep : ∃ now, call = .sweep now
  · obtain ⟨now, rfl⟩ := isSweep
    cases stepped
    exact kept.checkSlots_idle now (by decide)
  · have shown := stepped.idle fun now same => isSweep ⟨now, same⟩
    have spares : Spares reactor call := by
      cases call with
      | sweep now => exact absurd ⟨now, rfl⟩ isSweep
      | _ => trivial
    constructor
    · intro holds
      exact ⟨holds.earlier, spares⟩
    · intro holds
      exact holds.1.append shown

/-- Whatever the clock shows and in whatever order the callbacks come, the sweep
closes only idle clients exactly in the runs in which it never comes by the slot of
a socket that has been listening for 60 seconds. -/
theorem idle_iff_spares (exec : (machine taken).Exec calls reactor events) :
    Historically Idle events ↔ (machine taken).Guarded Spares calls := by
  induction exec with
  | start => exact iff_of_true historically_nil Machine.guarded_nil
  | step before stepped inductionHypothesis =>
      rw [(exec_kept before).step_idle (step_cases stepped), Machine.guarded_snoc_iff, inductionHypothesis]
      apply and_congr_right
      intro _
      constructor
      · intro spares state seen exec
        obtain ⟨rfl, -⟩ := before.functional exec
        exact spares
      · intro spares
        exact spares _ _ before

/-- Clients connect all the time. -/
private def listenerCalls : List Call :=
  [.addListener 3 0, .accept 3 (some 5) true 20, .accept 3 (some 6) true 40, .accept 3 (some 7) true 59, .sweep 60]

private def listenerEvents : List Event :=
  [.listening 3, .accepted 5 20 0, .accepted 6 40 0, .accepted 7 59 0, .swept 3 60]

private theorem listener_exec :
    ∃ reactor, (machine fun fd => decide (fd < 3)).Exec listenerCalls reactor listenerEvents := by
  have ran : ((machine fun fd => decide (fd < 3)).run listenerCalls).map Prod.snd = some listenerEvents := by
    decide +kernel
  obtain ⟨outcome, isRun, same⟩ := Option.map_eq_some_iff.mp ran
  exact ⟨outcome.1, Machine.exec_of_run _ (isRun.trans (congrArg some (Prod.ext rfl same)))⟩

private theorem listener_not_idle : ¬ Historically Idle listenerEvents := by
  intro idle
  obtain ⟨time, isClient, -⟩ := idle_swept_iff.mp
    (idle (listenerEvents.take 4) (.swept 3 60) [] rfl)
  have isListener : lastUse 3 (listenerEvents.take 4) = some .listener := by decide
  rw [isListener] at isClient
  cases isClient

/-- The listening socket is closed one second after a client has connected. -/
theorem listener_swept : ¬ ∀ (taken : Nat → Bool) (calls : List Call) (reactor : Ntyreactor) (events : List Event),
    (machine taken).Exec calls reactor events → Historically Idle events := by
  intro claimed
  obtain ⟨reactor, exec⟩ := listener_exec
  exact listener_not_idle (claimed _ _ _ _ exec)

theorem listener_not_spared : ¬ (machine fun fd => decide (fd < 3)).Guarded Spares
    [.addListener 3 0, .accept 3 (some 5) true 20, .accept 3 (some 6) true 40, .accept 3 (some 7) true 59,
      .sweep 60] := by
  intro guarded
  obtain ⟨reactor, exec⟩ := listener_exec
  exact listener_not_idle ((idle_iff_spares exec).mpr guarded)

end SimpleBasicComponents.Reactor
