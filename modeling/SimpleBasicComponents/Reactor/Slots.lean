import SimpleBasicComponents.Reactor.Model

/-!
What the slots in use stand for.

Owns: the last use of a descriptor that a history shows, and the invariant of the
table: a slot in use has the number of its descriptor, which is open, and its
callback and its time are those of the last use. What the process had open at the
start stays open and has no slot. What else is open without a slot has been lost.
-/

namespace SimpleBasicComponents.Reactor

open SimpleBasicComponents.Semantics

inductive Use where
  | listener
  /-- The time of the last accept, receive or send. -/
  | client (time : Int)
deriving DecidableEq, Repr

def useOf (fd : Nat) : Event → Option Use
  | .listening other => if other = fd then some .listener else none
  | .accepted other time _ | .received other time | .sent other time =>
      if other = fd then some (.client time) else none
  | .refused _ | .closed _ | .swept _ _ | .outside _ => none

def lastUse (fd : Nat) (events : List Event) : Option Use := events.reverse.findSome? (useOf fd)

/-- The use a slot says its descriptor has. -/
def Ntyevent.use (ev : Ntyevent) : Use :=
  if ev.callback = some .acceptCb then .listener else .client ev.lastActive

/-- The code has refused the descriptor, or looked for its slot behind the table. -/
def Lost (fd : Nat) (events : List Event) : Prop := .refused fd ∈ events ∨ .outside fd ∈ events

structure Kept (taken : Nat → Bool) (reactor : Ntyreactor) (events : List Event) : Prop where
  number : ∀ k, (reactor.events k).status = 1 → (reactor.events k).fd = k
  isOpen : ∀ k, (reactor.events k).status = 1 → reactor.isOpen k = true
  use : ∀ k, (reactor.events k).status = 1 → lastUse k events = some (reactor.events k).use
  apart : ∀ k, taken k = true → reactor.isOpen k = true ∧ (reactor.events k).status ≠ 1
  accounted : ∀ k, reactor.isOpen k = true →
    taken k = true ∨ (reactor.events k).status = 1 ∨ Lost k events
  position : reactor.checkpos ≤ maxEpollEvents

variable {taken : Nat → Bool} {reactor next : Ntyreactor} {events shown : List Event} {fd : Nat}
  {ev : Ntyevent}

theorem lastUse_append (fd : Nat) (events shown : List Event) :
    lastUse fd (events ++ shown) = (lastUse fd shown).or (lastUse fd events) := by
  unfold lastUse
  rw [List.reverse_append, List.findSome?_append]

theorem Lost.append (lost : Lost fd events) (shown : List Event) : Lost fd (events ++ shown) := by
  cases lost with
  | inl refused => exact .inl (List.mem_append_left _ refused)
  | inr outside => exact .inr (List.mem_append_left _ outside)

theorem Lost.later (lost : Lost fd shown) (events : List Event) : Lost fd (events ++ shown) := by
  cases lost with
  | inl refused => exact .inl (List.mem_append_right _ refused)
  | inr outside => exact .inr (List.mem_append_right _ outside)

/-- A slot is taken into use, or goes on to be used. -/
theorem Kept.assign (kept : Kept taken reactor events) (isEvents : next.events = Function.update reactor.events fd ev)
    (isFd : ev.fd = fd) (isSet : ev.status = 1)
    (opens : ∀ k, next.isOpen k = true ↔ k = fd ∨ reactor.isOpen k = true)
    (free : taken fd = false) (isUse : lastUse fd shown = some ev.use)
    (elsewhere : ∀ k, k ≠ fd → lastUse k shown = none) (position : next.checkpos ≤ maxEpollEvents) :
    Kept taken next (events ++ shown) where
  number k inUse := by
    rw [isEvents] at inUse ⊢
    by_cases same : k = fd
    · rw [same, Function.update_self, isFd]
    · rw [Function.update_of_ne same] at inUse ⊢
      exact kept.number k inUse
  isOpen k inUse := by
    rw [isEvents] at inUse
    rw [opens]
    by_cases same : k = fd
    · exact .inl same
    · rw [Function.update_of_ne same] at inUse
      exact .inr (kept.isOpen k inUse)
  use k inUse := by
    rw [isEvents] at inUse ⊢
    rw [lastUse_append]
    by_cases same : k = fd
    · rw [same, Function.update_self, isUse]
      rfl
    · rw [Function.update_of_ne same] at inUse ⊢
      rw [elsewhere k same]
      exact kept.use k inUse
  apart k isTaken := by
    have different : k ≠ fd := by
      rintro rfl
      rw [free] at isTaken
      contradiction
    have before := kept.apart k isTaken
    rw [isEvents, Function.update_of_ne different, opens]
    exact ⟨.inr before.1, before.2⟩
  accounted k isOpen := by
    rw [isEvents]
    by_cases same : k = fd
    · rw [same, Function.update_self]
      exact .inr (.inl isSet)
    · rw [Function.update_of_ne same]
      have wasOpen := ((opens k).mp isOpen).resolve_left same
      exact (kept.accounted k wasOpen).imp_right fun rest => rest.imp_right fun lost => lost.append shown
  position := position

/-- A slot goes out of use and its descriptor is closed. -/
theorem Kept.release (kept : Kept taken reactor events) (inUse : (reactor.events fd).status = 1)
    (isEvents : next.events = Function.update reactor.events fd ev) (off : ev.status ≠ 1)
    (opens : ∀ k, next.isOpen k = true ↔ k ≠ fd ∧ reactor.isOpen k = true)
    (noUse : ∀ k, lastUse k shown = none) (position : next.checkpos ≤ maxEpollEvents) :
    Kept taken next (events ++ shown) := by
  have others : ∀ k, (next.events k).status = 1 → k ≠ fd ∧ next.events k = reactor.events k ∧
      (reactor.events k).status = 1 := by
    intro k stillInUse
    rw [isEvents] at stillInUse ⊢
    by_cases same : k = fd
    · rw [same, Function.update_self] at stillInUse
      exact absurd stillInUse off
    · rw [Function.update_of_ne same] at stillInUse ⊢
      exact ⟨same, rfl, stillInUse⟩
  refine ⟨?_, ?_, ?_, ?_, ?_, position⟩
  · intro k stillInUse
    obtain ⟨-, same, before⟩ := others k stillInUse
    rw [same]
    exact kept.number k before
  · intro k stillInUse
    obtain ⟨different, -, before⟩ := others k stillInUse
    exact (opens k).mpr ⟨different, kept.isOpen k before⟩
  · intro k stillInUse
    obtain ⟨-, same, before⟩ := others k stillInUse
    rw [same, lastUse_append, noUse]
    exact kept.use k before
  · intro k isTaken
    obtain ⟨stillOpen, notInUse⟩ := kept.apart k isTaken
    have different : k ≠ fd := by
      rintro rfl
      exact notInUse inUse
    rw [isEvents, Function.update_of_ne different, opens]
    exact ⟨⟨different, stillOpen⟩, notInUse⟩
  · intro k stillOpen
    have ⟨different, wasOpen⟩ := (opens k).mp stillOpen
    rw [isEvents, Function.update_of_ne different]
    exact (kept.accounted k wasOpen).imp_right fun rest => rest.imp_right fun lost => lost.append shown

/-- No slot changes, and no descriptor is closed. -/
theorem Kept.same (kept : Kept taken reactor events) (isEvents : next.events = reactor.events)
    (opens : ∀ k, reactor.isOpen k = true → next.isOpen k = true)
    (lost : ∀ k, next.isOpen k = true → reactor.isOpen k = true ∨ Lost k shown)
    (noUse : ∀ k, lastUse k shown = none) (position : next.checkpos ≤ maxEpollEvents) :
    Kept taken next (events ++ shown) where
  number k inUse := by
    rw [isEvents] at inUse ⊢
    exact kept.number k inUse
  isOpen k inUse := by
    rw [isEvents] at inUse
    exact opens k (kept.isOpen k inUse)
  use k inUse := by
    rw [isEvents] at inUse ⊢
    rw [lastUse_append, noUse]
    exact kept.use k inUse
  apart k isTaken := by
    rw [isEvents]
    exact ⟨opens k (kept.apart k isTaken).1, (kept.apart k isTaken).2⟩
  accounted k isOpen := by
    rw [isEvents]
    cases lost k isOpen with
    | inl wasOpen =>
        exact (kept.accounted k wasOpen).imp_right fun rest => rest.imp_right fun lost => lost.append shown
    | inr lost => exact .inr (.inr (lost.later events))
  position := position

theorem kept_start (taken : Nat → Bool) : Kept taken (machine taken).start [] where
  number k inUse := absurd inUse (by simp [machine])
  isOpen k inUse := absurd inUse (by simp [machine])
  use k inUse := absurd inUse (by simp [machine])
  apart k isTaken := ⟨isTaken, by simp [machine]⟩
  accounted k isOpen := .inl isOpen
  position := Nat.zero_le _

/-- A descriptor the kernel may give out has no slot in use and was not open at the start. -/
theorem Kept.unused (kept : Kept taken reactor events) (isFree : reactor.isOpen fd = false) :
    (reactor.events fd).status ≠ 1 ∧ taken fd = false := by
  constructor
  · intro inUse
    have isOpen := kept.isOpen fd inUse
    rw [isFree] at isOpen
    contradiction
  · by_contra isTaken
    have isOpen := (kept.apart fd ((Bool.not_eq_false _).mp isTaken)).1
    rw [isFree] at isOpen
    contradiction

theorem Kept.notTaken (kept : Kept taken reactor events) (inUse : (reactor.events fd).status = 1) :
    taken fd = false := by
  by_contra isTaken
  exact (kept.apart fd ((Bool.not_eq_false _).mp isTaken)).2 inUse

theorem update_true_iff {isOpen : Nat → Bool} {k : Nat} :
    Function.update isOpen fd true k = true ↔ k = fd ∨ isOpen k = true := by
  by_cases same : k = fd
  · rw [same, Function.update_self]
    simp
  · rw [Function.update_of_ne same]
    simp [same]

theorem update_false_iff {isOpen : Nat → Bool} {k : Nat} :
    Function.update isOpen fd false k = true ↔ k ≠ fd ∧ isOpen k = true := by
  by_cases same : k = fd
  · rw [same, Function.update_self]
    simp
  · rw [Function.update_of_ne same]
    simp [same]

/-- The uses a single event shows. -/
theorem lastUse_singleton (k : Nat) (event : Event) : lastUse k [event] = useOf k event := by
  unfold lastUse
  simp only [List.reverse_singleton, List.findSome?_cons, List.findSome?_nil]
  cases useOf k event <;> rfl

theorem ntyEventDel_status (ev : Ntyevent) : (ntyEventDel ev).status ≠ 1 := by
  unfold ntyEventDel
  by_cases inUse : ev.status = 1
  · simp [inUse]
  · rw [if_pos inUse]
    exact inUse

theorem ntyEventDel_fd (ev : Ntyevent) : (ntyEventDel ev).fd = ev.fd := by
  unfold ntyEventDel
  split <;> rfl

/-! ### What a callback shows -/

/-- The slot the sweep looks at next. -/
def Ntyreactor.pos (reactor : Ntyreactor) : Nat :=
  if reactor.checkpos = maxEpollEvents then 0 else reactor.checkpos

/-- What the callbacks of a connection show. -/
def Event.OfConnection : Event → Prop
  | .received _ _ | .sent _ _ | .closed _ => True
  | _ => False

theorem recvCb_shown {received : Bool} {time : Int} {event : Event}
    (member : event ∈ (recvCb reactor fd received time).2) : event.OfConnection := by
  cases received with
  | true =>
      rw [recvCb, if_pos rfl, List.mem_singleton] at member
      exact member ▸ trivial
  | false =>
      rw [recvCb, if_neg Bool.false_ne_true, List.mem_singleton] at member
      exact member ▸ trivial

theorem sendCb_shown {sent : Bool} {time : Int} {event : Event}
    (member : event ∈ (sendCb reactor fd sent time).2) : event.OfConnection := by
  cases sent with
  | true =>
      rw [sendCb, if_pos rfl, List.mem_singleton] at member
      exact member ▸ trivial
  | false =>
      rw [sendCb, if_neg Bool.false_ne_true, List.mem_singleton] at member
      exact member ▸ trivial

theorem checkSlots_succ (reactor : Ntyreactor) (now : Int) (count : Nat) :
    (checkSlots now (count + 1) reactor).2 =
      (checkSlot reactor now).2 ++ (checkSlots now count (checkSlot reactor now).1).2 :=
  rfl

theorem checkSlots_shown {now : Int} {count : Nat} {event : Event}
    (member : event ∈ (checkSlots now count reactor).2) : ∃ fd, event = .swept fd now := by
  induction count generalizing reactor with
  | zero => exact absurd member List.not_mem_nil
  | succ count inductionHypothesis =>
      rw [checkSlots_succ, List.mem_append] at member
      cases member with
      | inr later => exact inductionHypothesis later
      | inl first =>
          unfold checkSlot at first
          rw [← Ntyreactor.pos] at first
          simp only at first
          split at first
          · exact absurd first List.not_mem_nil
          · split at first
            · exact ⟨_, List.mem_singleton.mp first⟩
            · exact absurd first List.not_mem_nil

/-! ### What a step does -/

/-- A slot in use is set once more. -/
private theorem Kept.again (kept : Kept taken reactor events) (inUse : (reactor.events fd).status = 1)
    {callback : Callback} (isClient : callback ≠ .acceptCb) {event : Event} {time mask : Int} {old : Ntyevent}
    (isUse : ∀ k, useOf k event = if fd = k then some (.client time) else none) :
    Kept taken (reactor.setSlot fd (ntyEventAdd (ntyEventSet old fd callback time) mask))
      (events ++ [event]) := by
  have opens (k : Nat) : reactor.isOpen k = true ↔ k = fd ∨ reactor.isOpen k = true := by
    constructor
    · exact .inr
    · intro either
      cases either with
      | inl same => exact same ▸ kept.isOpen fd inUse
      | inr stillOpen => exact stillOpen
  apply @Kept.assign taken reactor (reactor.setSlot fd _) events _ fd _ kept rfl rfl rfl opens (kept.notTaken inUse)
    ?_ ?_ kept.position
  · rw [lastUse_singleton, isUse, if_pos rfl]
    simp [Ntyevent.use, ntyEventAdd, ntyEventSet, isClient]
  · intro k different
    rw [lastUse_singleton, isUse, if_neg (Ne.symm different)]

private theorem Kept.closed (kept : Kept taken reactor events) (inUse : (reactor.events fd).status = 1) :
    Kept taken ((reactor.setSlot fd (ntyEventDel (reactor.events fd))).close
      (ntyEventDel (reactor.events fd)).fd) (events ++ [.closed (ntyEventDel (reactor.events fd)).fd]) := by
  rw [ntyEventDel_fd, kept.number fd inUse]
  refine kept.release inUse rfl (ntyEventDel_status _) (fun k => update_false_iff) ?_ kept.position
  intro k
  rw [lastUse_singleton]
  rfl

theorem Kept.recvCb (kept : Kept taken reactor events) (inUse : (reactor.events fd).status = 1)
    (received : Bool) (time : Int) :
    Kept taken (recvCb reactor fd received time).1 (events ++ (recvCb reactor fd received time).2) := by
  cases received with
  | true => exact kept.again inUse (by decide) fun k => rfl
  | false => exact kept.closed inUse

theorem Kept.sendCb (kept : Kept taken reactor events) (inUse : (reactor.events fd).status = 1)
    (sent : Bool) (time : Int) :
    Kept taken (sendCb reactor fd sent time).1 (events ++ (sendCb reactor fd sent time).2) := by
  cases sent with
  | true => exact kept.again inUse (by decide) fun k => rfl
  | false => exact kept.closed inUse

theorem Kept.addListener (kept : Kept taken reactor events) (isFree : reactor.isOpen fd = false) (time : Int) :
    Kept taken (addListener reactor fd time).1 (events ++ (addListener reactor fd time).2) := by
  refine kept.assign rfl rfl rfl (fun k => update_true_iff) (kept.unused isFree).2 ?_ ?_ kept.position
  · rw [Reactor.addListener, lastUse_singleton, useOf, if_pos rfl]
    rfl
  · intro k different
    rw [Reactor.addListener, lastUse_singleton, useOf, if_neg (Ne.symm different)]

theorem Kept.acceptCb (kept : Kept taken reactor events) (isFree : reactor.isOpen fd = false)
    (nonblocking : Bool) (time : Int) :
    Kept taken (acceptCb reactor fd nonblocking time).1 (events ++ (acceptCb reactor fd nonblocking time).2) := by
  have opens : ∀ k, reactor.isOpen k = true → Function.update reactor.isOpen fd true k = true :=
    fun k wasOpen => update_true_iff.mpr (.inr wasOpen)
  have fresh {shown : List Event} (lost : Lost fd shown) (k : Nat)
      (isOpen : Function.update reactor.isOpen fd true k = true) : reactor.isOpen k = true ∨ Lost k shown := by
    cases update_true_iff.mp isOpen with
    | inl same => exact .inr (same ▸ lost)
    | inr wasOpen => exact .inl wasOpen
  unfold Reactor.acceptCb
  simp only
  cases freeSlot (reactor.openFd fd) with
  | none => exact kept.same rfl opens (fresh (.inl (by simp))) (fun k => rfl) kept.position
  | some slot =>
      cases nonblocking with
      | false => exact kept.same rfl opens (fresh (.inl (by simp))) (fun k => rfl) kept.position
      | true =>
          by_cases inTable : fd < maxEpollEvents
          · simp only [if_true, if_pos inTable]
            refine kept.assign rfl rfl rfl (fun k => update_true_iff) (kept.unused isFree).2 ?_ ?_ kept.position
            · rw [lastUse_singleton, useOf, if_pos rfl]
              rfl
            · intro k different
              rw [lastUse_singleton, useOf, if_neg (Ne.symm different)]
          · simp only [if_true, if_neg inTable]
            exact kept.same rfl opens (fresh (.inr (by simp))) (fun k => rfl) kept.position

theorem Kept.pos_lt (kept : Kept taken reactor events) : reactor.pos < maxEpollEvents := by
  have position := kept.position
  unfold Ntyreactor.pos
  split
  · decide
  · omega

theorem Kept.checkSlot (kept : Kept taken reactor events) (now : Int) :
    Kept taken (checkSlot reactor now).1 (events ++ (checkSlot reactor now).2) := by
  have below := kept.pos_lt
  unfold Reactor.checkSlot
  rw [← Ntyreactor.pos]
  by_cases inUse : (reactor.events reactor.pos).status = 1
  · simp only [ne_eq, inUse, not_true_eq_false, if_false]
    split
    · refine kept.release inUse rfl (ntyEventDel_status _) ?_ (fun k => rfl) below
      intro k
      rw [kept.number _ inUse]
      exact update_false_iff
    · exact kept.same rfl (fun k wasOpen => wasOpen) (fun k isOpen => .inl isOpen) (fun k => rfl) below
  · simp only [ne_eq, inUse, not_false_eq_true, if_true]
    exact kept.same rfl (fun k wasOpen => wasOpen) (fun k isOpen => .inl isOpen) (fun k => rfl) below

theorem Kept.checkSlots (kept : Kept taken reactor events) (now : Int) (count : Nat) :
    Kept taken (checkSlots now count reactor).1 (events ++ (checkSlots now count reactor).2) := by
  induction count generalizing reactor events with
  | zero => exact (List.append_nil events).symm ▸ kept
  | succ count inductionHypothesis =>
      have grown := inductionHypothesis (kept.checkSlot now)
      rw [List.append_assoc] at grown
      exact grown

/-- What the loop may do, and when. -/
inductive Stepped (reactor : Ntyreactor) : Call → Ntyreactor × List Event → Prop
  | addListener {sockfd : Nat} (time : Int) (isFree : reactor.isOpen sockfd = false) :
      Stepped reactor (.addListener sockfd time) (addListener reactor sockfd time)
  | noClient (slot : Nat) (nonblocking : Bool) (time : Int) :
      Stepped reactor (.accept slot none nonblocking time) (reactor, [])
  | accept (slot : Nat) {clientfd : Nat} (nonblocking : Bool) (time : Int)
      (isFree : reactor.isOpen clientfd = false) :
      Stepped reactor (.accept slot (some clientfd) nonblocking time)
        (acceptCb reactor clientfd nonblocking time)
  | recv {slot : Nat} (received : Bool) (time : Int) (inUse : (reactor.events slot).status = 1) :
      Stepped reactor (.recv slot received time) (recvCb reactor (reactor.events slot).fd received time)
  | send {slot : Nat} (sent : Bool) (time : Int) (inUse : (reactor.events slot).status = 1) :
      Stepped reactor (.send slot sent time) (sendCb reactor (reactor.events slot).fd sent time)
  | sweep (now : Int) : Stepped reactor (.sweep now) (checkSlots now 100 reactor)

theorem step_cases {call : Call} {outcome : Ntyreactor × List Event} (taken : step reactor call = some outcome) :
    Stepped reactor call outcome := by
  unfold step at taken
  split at taken
  · contradiction
  split at taken
  · split at taken
    · next allowed => exact Option.some.inj taken ▸ .addListener _ allowed.1
    · contradiction
  · split at taken
    · exact Option.some.inj taken ▸ .noClient _ _ _
    · contradiction
  · split at taken
    · next allowed => exact Option.some.inj taken ▸ .accept _ _ _ allowed.2
    · contradiction
  · split at taken
    · next awaits => exact Option.some.inj taken ▸ .recv _ _ awaits.2.1
    · contradiction
  · split at taken
    · next awaits => exact Option.some.inj taken ▸ .send _ _ awaits.2.1
    · contradiction
  · exact Option.some.inj taken ▸ .sweep _

theorem Kept.step (kept : Kept taken reactor events) {call : Call} {outcome : Ntyreactor × List Event}
    (stepped : Stepped reactor call outcome) : Kept taken outcome.1 (events ++ outcome.2) := by
  cases stepped with
  | addListener time isFree => exact kept.addListener isFree time
  | noClient slot nonblocking time => exact (List.append_nil events).symm ▸ kept
  | accept slot nonblocking time isFree => exact kept.acceptCb isFree nonblocking time
  | recv received time inUse =>
      rw [kept.number _ inUse]
      exact kept.recvCb inUse received time
  | send sent time inUse =>
      rw [kept.number _ inUse]
      exact kept.sendCb inUse sent time
  | sweep now => exact kept.checkSlots now 100

theorem exec_kept {calls : List Call} (exec : (machine taken).Exec calls reactor events) :
    Kept taken reactor events := by
  induction exec with
  | start => exact kept_start taken
  | step before stepped inductionHypothesis => exact inductionHypothesis.step (step_cases stepped)

end SimpleBasicComponents.Reactor
