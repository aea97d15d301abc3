import SimpleBasicComponents.Reactor.Slots
import SimpleBasicComponents.Semantics.History

/-!
What the single reactor echoes.

Owns: the buffers of the slots, the machine of the reactor with the bytes that `recv`
delivers and `send` takes, and the theorem that a client is only ever sent the beginning
of what it has just sent itself. Slots and descriptors are used again by later clients,
and nothing clears a buffer.

A chunk that fills the buffer is followed by a zero byte behind it and is a fault. `send`
may take less than it is given; what it leaves is not sent later.
-/

namespace SimpleBasicComponents.Reactor.Echo

open SimpleBasicComponents.Semantics

def bufferLength : Nat := 4096

structure Echoing where
  reactor : Ntyreactor
  /-- The first `length` bytes of the slot's buffer. -/
  buffers : Nat → List UInt8

inductive Call where
  | addListener (sockfd : Nat) (time : Int)
  | accept (slot : Nat) (clientfd : Option Nat) (nonblocking : Bool) (time : Int)
  /-- No bytes stand for a closed connection and for an error. -/
  | recv (slot : Nat) (bytes : List UInt8) (time : Int)
  /-- `count` is what `send` returns, if that is positive. -/
  | send (slot : Nat) (count : Nat) (time : Int)
  | sweep (now : Int)
deriving DecidableEq, Repr

def Call.base : Call → Reactor.Call
  | .addListener sockfd time => .addListener sockfd time
  | .accept slot clientfd nonblocking time => .accept slot clientfd nonblocking time
  | .recv slot bytes time => .recv slot (bytes ≠ []) time
  | .send slot count time => .send slot (0 < count) time
  | .sweep now => .sweep now

/-- An event and the bytes that it is about. -/
abbrev Passed := Event × List UInt8

def carrying (bytes : List UInt8) (shown : List Event) : List Passed := shown.map fun event => (event, bytes)

def step (state : Echoing) (call : Call) : Option (Echoing × List Passed) :=
  match Reactor.step state.reactor call.base with
  | none => none
  | some (reactor, shown) =>
      match call with
      | .recv slot bytes _ =>
          let fd := (state.reactor.events slot).fd
          if bytes.length < bufferLength then
            let buffers := if bytes ≠ [] then Function.update state.buffers fd bytes else state.buffers
            some (⟨reactor, buffers⟩, carrying bytes shown)
          else none
      | .send slot count _ =>
          let fd := (state.reactor.events slot).fd
          if count ≤ (state.buffers fd).length then
            some (⟨reactor, state.buffers⟩, carrying ((state.buffers fd).take count) shown)
          else none
      | .addListener _ _ | .accept _ _ _ _ | .sweep _ => some (⟨reactor, state.buffers⟩, carrying [] shown)

def machine (taken : Nat → Bool) : Machine Echoing Call Passed where
  start := ⟨(Reactor.machine taken).start, fun _ => []⟩
  step := step

/-! ### What the clients see -/

/-- The descriptor whose client the event concerns. -/
def about : Event → Option Nat
  | .listening fd | .accepted fd _ _ | .received fd _ | .sent fd _ | .closed fd | .swept fd _ => some fd
  | .refused _ | .outside _ => none

/-- The last event that concerns the client. -/
def lastOf (fd : Nat) (events : List Passed) : Option Passed :=
  events.reverse.find? fun passed => about passed.1 = some fd

/-- The event after which a client may send. -/
def Invites (fd : Nat) : Event → Prop
  | .accepted other _ _ | .sent other _ => other = fd
  | _ => False

/-- A client is heard after it was accepted or answered, and answered right after it was
heard, with the beginning of what it has sent. -/
def InTurn (earlier : List Passed) (passed : Passed) : Prop :=
  match passed.1 with
  | .received fd _ => ∃ last, lastOf fd earlier = some last ∧ Invites fd last.1
  | .sent fd _ => ∃ time chunk, lastOf fd earlier = some (.received fd time, chunk) ∧
      passed.2 <+: chunk ∧ passed.2 ≠ []
  | _ => True

/-! ### The invariant -/

/-- What the slot waits for and holds is what the last event of its client says. -/
structure SlotTied (state : Echoing) (events : List Passed) (k : Nat) : Prop where
  sending : (state.reactor.events k).status = 1 → (state.reactor.events k).callback = some .sendCb →
    ∃ time, lastOf k events = some (.received k time, state.buffers k)
  receiving : (state.reactor.events k).status = 1 → (state.reactor.events k).callback = some .recvCb →
    ∃ last, lastOf k events = some last ∧ Invites k last.1

structure Tied (taken : Nat → Bool) (state : Echoing) (events : List Passed) : Prop where
  kept : Kept taken state.reactor (events.map Prod.fst)
  slots : ∀ k, SlotTied state events k
  inTurn : Historically InTurn events

section

variable {taken : Nat → Bool} {state next : Echoing} {events shown : List Passed} {fd k : Nat}

theorem lastOf_append : lastOf k (events ++ shown) = (lastOf k shown).or (lastOf k events) := by
  unfold lastOf
  rw [List.reverse_append, List.find?_append]

theorem lastOf_eq_none (elsewhere : ∀ passed ∈ shown, about passed.1 ≠ some k) : lastOf k shown = none := by
  unfold lastOf
  rw [List.find?_eq_none]
  intro passed member
  simpa using elsewhere passed (List.mem_reverse.mp member)

theorem lastOf_snoc {passed : Passed} (concerns : about passed.1 = some k) :
    lastOf k (events ++ [passed]) = some passed := by
  rw [lastOf_append]
  simp [lastOf, concerns]

/-- Slots that are as they were, and whose clients nothing concerns. -/
theorem SlotTied.unchanged (tied : SlotTied state events k)
    (sameSlot : next.reactor.events k = state.reactor.events k) (sameBuffer : next.buffers k = state.buffers k)
    (elsewhere : ∀ passed ∈ shown, about passed.1 ≠ some k) : SlotTied next (events ++ shown) k := by
  have sameLast : lastOf k (events ++ shown) = lastOf k events := by
    rw [lastOf_append, lastOf_eq_none elsewhere, Option.none_or]
  refine ⟨?_, ?_⟩
  · rw [sameSlot, sameBuffer, sameLast]
    exact tied.sending
  · rw [sameSlot, sameLast]
    exact tied.receiving

/-- A slot that is not in use holds nothing. -/
theorem slotTied_of_unused (unused : (next.reactor.events k).status ≠ 1) : SlotTied next events k :=
  ⟨fun inUse => absurd inUse unused, fun inUse => absurd inUse unused⟩

/-- Only one slot changes, and only its client is concerned. -/
theorem slotTied_of_one (fd : Nat) (tied : ∀ k, SlotTied state events k)
    (others : ∀ k, k ≠ fd → next.reactor.events k = state.reactor.events k ∧ next.buffers k = state.buffers k)
    (concerns : ∀ passed ∈ shown, ∀ k, about passed.1 = some k → k = fd)
    (here : SlotTied next (events ++ shown) fd) : ∀ k, SlotTied next (events ++ shown) k := by
  intro k
  by_cases same : k = fd
  · exact same ▸ here
  · have ⟨sameSlot, sameBuffer⟩ := others k same
    exact (tied k).unchanged sameSlot sameBuffer fun passed member isAbout => same (concerns passed member k isAbout)

theorem carrying_fst (bytes : List UInt8) (shown : List Event) : (carrying bytes shown).map Prod.fst = shown := by
  rw [carrying, List.map_map]
  exact List.map_id' shown

/-- Events that are neither receipts nor answers may follow at any time. -/
theorem Tied.quiet (tied : Tied taken state events)
    (silent : ∀ passed ∈ shown, (∀ fd time, passed.1 ≠ .received fd time) ∧ ∀ fd time, passed.1 ≠ .sent fd time) :
    Historically InTurn (events ++ shown) := by
  apply tied.inTurn.append
  intro earlier passed member
  have ⟨notReceived, notSent⟩ := silent passed member
  obtain ⟨event, bytes⟩ := passed
  cases event with
  | received fd time => exact absurd rfl (notReceived fd time)
  | sent fd time => exact absurd rfl (notSent fd time)
  | listening | accepted | refused | closed | swept | outside => trivial

/-! ### The steps -/

theorem recv_taken {reactor : Ntyreactor} {slot : Nat} {received : Bool} {time : Int}
    {outcome : Ntyreactor × List Event} (taken : Reactor.step reactor (.recv slot received time) = some outcome) :
    reactor.Awaits slot .recvCb epollin ∧ outcome = recvCb reactor (reactor.events slot).fd received time := by
  simp only [Reactor.step] at taken
  split at taken
  · contradiction
  · split at taken
    · rename_i awaits
      exact ⟨awaits, (Option.some.inj taken).symm⟩
    · contradiction

theorem send_taken {reactor : Ntyreactor} {slot : Nat} {sent : Bool} {time : Int}
    {outcome : Ntyreactor × List Event} (taken : Reactor.step reactor (.send slot sent time) = some outcome) :
    reactor.Awaits slot .sendCb epollout ∧ outcome = sendCb reactor (reactor.events slot).fd sent time := by
  simp only [Reactor.step] at taken
  split at taken
  · contradiction
  · split at taken
    · rename_i awaits
      exact ⟨awaits, (Option.some.inj taken).symm⟩
    · contradiction

/-- No slot changes, and no client is concerned. -/
private theorem Tied.same (tied : Tied taken state events)
    (keptNext : Kept taken next.reactor (events.map Prod.fst ++ shown.map Prod.fst))
    (sameSlots : next.reactor.events = state.reactor.events) (sameBuffers : next.buffers = state.buffers)
    (nobody : ∀ passed ∈ shown, about passed.1 = none) : Tied taken next (events ++ shown) := by
  refine ⟨?_, ?_, ?_⟩
  · rw [List.map_append]
    exact keptNext
  · intro k
    refine (tied.slots k).unchanged (by rw [sameSlots]) (by rw [sameBuffers]) ?_
    intro passed member isAbout
    rw [nobody passed member] at isAbout
    contradiction
  · apply tied.quiet
    intro passed member
    have isNone := nobody passed member
    constructor
    · intro fd time isReceived
      rw [isReceived] at isNone
      contradiction
    · intro fd time isSent
      rw [isSent] at isNone
      contradiction

/-- A client whose connection is closed. -/
private theorem Tied.close (tied : Tied taken state events) {slot : Nat} (bytes : List UInt8) {event : Event}
    (ends : event = .closed slot ∨ ∃ now, event = .swept slot now)
    (keptNext : Kept taken next.reactor (events.map Prod.fst ++ [event]))
    (isSlots : next.reactor.events = Function.update state.reactor.events slot (ntyEventDel (state.reactor.events slot)))
    (sameBuffers : next.buffers = state.buffers) : Tied taken next (events ++ carrying bytes [event]) := by
  have concerns : about event = some slot := by
    cases ends with
    | inl closed => rw [closed]; rfl
    | inr swept => rw [swept.choose_spec]; rfl
  refine ⟨?_, ?_, ?_⟩
  · rw [List.map_append, carrying_fst]
    exact keptNext
  · refine slotTied_of_one slot tied.slots ?_ ?_ ?_
    · intro k different
      rw [isSlots, Function.update_of_ne different, sameBuffers]
      exact ⟨rfl, rfl⟩
    · intro passed member k isAbout
      obtain rfl := List.mem_singleton.mp member
      exact Option.some.inj (isAbout.symm.trans concerns)
    · apply slotTied_of_unused
      rw [isSlots, Function.update_self]
      exact ntyEventDel_status _
  · apply tied.quiet
    intro passed member
    obtain rfl := List.mem_singleton.mp member
    cases ends with
    | inl closed =>
        exact ⟨fun _ _ same => absurd (closed.symm.trans same) (by simp),
          fun _ _ same => absurd (closed.symm.trans same) (by simp)⟩
    | inr swept =>
        have isSwept := swept.choose_spec
        exact ⟨fun _ _ same => absurd (isSwept.symm.trans same) (by simp),
          fun _ _ same => absurd (isSwept.symm.trans same) (by simp)⟩

/-- A client that is heard or answered. -/
private theorem Tied.serve (tied : Tied taken state events) (slot : Nat) {passed : Passed} {ev : Ntyevent}
    (concerns : about passed.1 = some slot)
    (keptNext : Kept taken next.reactor (events.map Prod.fst ++ [passed.1]))
    (isSlots : next.reactor.events = Function.update state.reactor.events slot ev)
    (otherBuffers : ∀ k, k ≠ slot → next.buffers k = state.buffers k)
    (sending : ev.callback = some .sendCb → ∃ time, passed = (.received slot time, next.buffers slot))
    (receiving : ev.callback = some .recvCb → Invites slot passed.1) (inTurn : InTurn events passed) :
    Tied taken next (events ++ [passed]) := by
  refine ⟨?_, ?_, historically_snoc_iff.mpr ⟨tied.inTurn, inTurn⟩⟩
  · rw [List.map_append]
    exact keptNext
  · refine slotTied_of_one slot tied.slots ?_ ?_ ?_
    · intro k different
      rw [isSlots, Function.update_of_ne different]
      exact ⟨rfl, otherBuffers k different⟩
    · intro other member k isAbout
      obtain rfl := List.mem_singleton.mp member
      exact Option.some.inj (isAbout.symm.trans concerns)
    · refine ⟨fun _ isSend => ?_, fun _ isRecv => ?_⟩
      · rw [isSlots, Function.update_self] at isSend
        have ⟨time, isReceived⟩ := sending isSend
        exact ⟨time, (lastOf_snoc concerns).trans (congrArg some isReceived)⟩
      · rw [isSlots, Function.update_self] at isRecv
        exact ⟨passed, lastOf_snoc concerns, receiving isRecv⟩

private theorem Tied.recv (tied : Tied taken state events) {slot : Nat} {bytes : List UInt8} {time : Int}
    (awaits : state.reactor.Awaits slot .recvCb epollin) :
    Tied taken ⟨(recvCb state.reactor slot (bytes ≠ []) time).1,
        if bytes ≠ [] then Function.update state.buffers slot bytes else state.buffers⟩
      (events ++ carrying bytes (recvCb state.reactor slot (bytes ≠ []) time).2) := by
  have ⟨_, inUse, isCallback, _⟩ := awaits
  have keptNext := tied.kept.recvCb inUse (bytes ≠ []) time
  have ⟨last, isLast, invites⟩ := (tied.slots slot).receiving inUse isCallback
  have isFd := (ntyEventDel_fd (state.reactor.events slot)).trans (tied.kept.number slot inUse)
  by_cases empty : bytes = []
  · have closes : decide (bytes ≠ []) = false := by simp [empty]
    rw [closes] at keptNext ⊢
    rw [if_neg (not_not_intro empty)]
    exact tied.close bytes (.inl (congrArg Event.closed isFd)) keptNext rfl rfl
  · have hears : decide (bytes ≠ []) = true := by simp [empty]
    rw [hears] at keptNext ⊢
    rw [if_pos empty]
    refine tied.serve slot rfl keptNext rfl ?_ ?_ ?_ ⟨last, isLast, invites⟩
    · exact fun k different => Function.update_of_ne different _ _
    · exact fun _ => ⟨time, congrArg (Prod.mk _) (Function.update_self slot bytes state.buffers).symm⟩
    · exact fun isRecv => absurd isRecv (by simp [ntyEventAdd, ntyEventSet])

private theorem Tied.send (tied : Tied taken state events) {slot count : Nat} {time : Int}
    (awaits : state.reactor.Awaits slot .sendCb epollout) (possible : count ≤ (state.buffers slot).length) :
    Tied taken ⟨(sendCb state.reactor slot (0 < count) time).1, state.buffers⟩
      (events ++ carrying ((state.buffers slot).take count) (sendCb state.reactor slot (0 < count) time).2) := by
  have ⟨_, inUse, isCallback, _⟩ := awaits
  have keptNext := tied.kept.sendCb inUse (0 < count) time
  have ⟨heard, isLast⟩ := (tied.slots slot).sending inUse isCallback
  have isFd := (ntyEventDel_fd (state.reactor.events slot)).trans (tied.kept.number slot inUse)
  by_cases positive : 0 < count
  · have answers : decide (0 < count) = true := by simp [positive]
    rw [answers] at keptNext ⊢
    refine tied.serve slot rfl keptNext rfl (fun _ _ => rfl) ?_ (fun _ => rfl) ?_
    · exact fun isSend => absurd isSend (by simp [ntyEventAdd, ntyEventSet])
    · refine ⟨heard, _, isLast, List.take_prefix _ _, ?_⟩
      rw [← List.length_pos_iff, List.length_take]
      omega
  · have closes : decide (0 < count) = false := by simp [positive]
    rw [closes] at keptNext ⊢
    exact tied.close _ (.inl (congrArg Event.closed isFd)) keptNext rfl rfl

private theorem Tied.checkSlot (tied : Tied taken state events) (now : Int) :
    Tied taken ⟨(checkSlot state.reactor now).1, state.buffers⟩
      (events ++ carrying [] (checkSlot state.reactor now).2) := by
  have keptNext := tied.kept.checkSlot now
  unfold Reactor.checkSlot at keptNext ⊢
  rw [← Ntyreactor.pos] at keptNext ⊢
  simp only at keptNext ⊢
  by_cases inUse : (state.reactor.events state.reactor.pos).status = 1
  · rw [if_neg (not_not_intro inUse)] at keptNext ⊢
    by_cases idle : now - (state.reactor.events state.reactor.pos).lastActive ≥ 60
    · rw [if_pos idle] at keptNext ⊢
      have isFd := tied.kept.number _ inUse
      exact tied.close [] (.inr ⟨now, congrArg (fun fd => Event.swept fd now) isFd⟩) keptNext rfl rfl
    · rw [if_neg idle] at keptNext ⊢
      exact tied.same keptNext rfl rfl (by simp [carrying])
  · rw [if_pos inUse] at keptNext ⊢
    exact tied.same keptNext rfl rfl (by simp [carrying])

private theorem Tied.sweep (tied : Tied taken state events) (now : Int) (count : Nat) :
    Tied taken ⟨(checkSlots now count state.reactor).1, state.buffers⟩
      (events ++ carrying [] (checkSlots now count state.reactor).2) := by
  induction count generalizing state events with
  | zero =>
      rw [show carrying [] (checkSlots now 0 state.reactor).2 = [] from rfl, List.append_nil]
      exact tied
  | succ count inductionHypothesis =>
      have grown := inductionHypothesis (tied.checkSlot now)
      rw [List.append_assoc, carrying, carrying, ← List.map_append] at grown
      exact grown

private theorem Tied.addListener (tied : Tied taken state events) {sockfd : Nat}
    (isFree : state.reactor.isOpen sockfd = false) (time : Int) :
    Tied taken ⟨(addListener state.reactor sockfd time).1, state.buffers⟩
      (events ++ carrying [] (addListener state.reactor sockfd time).2) := by
  have keptNext := tied.kept.addListener isFree time
  refine tied.serve sockfd rfl keptNext rfl (fun _ _ => rfl) ?_ ?_ trivial
  · exact fun isSend => absurd isSend (by simp [ntyEventAdd, ntyEventSet])
  · exact fun isRecv => absurd isRecv (by simp [ntyEventAdd, ntyEventSet])

private theorem Tied.accept (tied : Tied taken state events) {clientfd : Nat}
    (isFree : state.reactor.isOpen clientfd = false) (nonblocking : Bool) (time : Int) :
    Tied taken ⟨(acceptCb state.reactor clientfd nonblocking time).1, state.buffers⟩
      (events ++ carrying [] (acceptCb state.reactor clientfd nonblocking time).2) := by
  have keptNext := tied.kept.acceptCb isFree nonblocking time
  unfold Reactor.acceptCb at keptNext ⊢
  simp only at keptNext ⊢
  cases slot : freeSlot (state.reactor.openFd clientfd) with
  | none =>
      rw [slot] at keptNext
      exact tied.same keptNext rfl rfl (by simp [carrying, about])
  | some free =>
      rw [slot] at keptNext
      cases nonblocking with
      | false => exact tied.same keptNext rfl rfl (by simp [carrying, about])
      | true =>
          simp only [if_true] at keptNext ⊢
          by_cases inTable : clientfd < maxEpollEvents
          · rw [if_pos inTable] at keptNext ⊢
            refine tied.serve clientfd rfl keptNext rfl (fun _ _ => rfl) ?_ (fun _ => rfl) trivial
            exact fun isSend => absurd isSend (by simp [ntyEventAdd, ntyEventSet])
          · rw [if_neg inTable] at keptNext ⊢
            exact tied.same keptNext rfl rfl (by simp [carrying, about])

/-! ### Whole runs -/

theorem Tied.step (tied : Tied taken state events) {call : Call} (stepped : step state call = some (next, shown)) :
    Tied taken next (events ++ shown) := by
  unfold Echo.step at stepped
  split at stepped
  · contradiction
  · rename_i reactor seen taken
    cases call with
    | recv slot bytes time =>
        have ⟨awaits, isOutcome⟩ := recv_taken taken
        simp only at stepped
        rw [tied.kept.number slot awaits.2.1] at isOutcome stepped
        obtain ⟨rfl, rfl⟩ := Prod.mk.inj isOutcome
        split at stepped
        · obtain ⟨rfl, rfl⟩ := Prod.mk.inj (Option.some.inj stepped)
          exact tied.recv awaits
        · contradiction
    | send slot count time =>
        have ⟨awaits, isOutcome⟩ := send_taken taken
        simp only at stepped
        rw [tied.kept.number slot awaits.2.1] at isOutcome stepped
        obtain ⟨rfl, rfl⟩ := Prod.mk.inj isOutcome
        split at stepped
        · rename_i possible
          obtain ⟨rfl, rfl⟩ := Prod.mk.inj (Option.some.inj stepped)
          exact tied.send awaits possible
        · contradiction
    | addListener sockfd time =>
        obtain ⟨rfl, rfl⟩ := Prod.mk.inj (Option.some.inj stepped)
        have cased := step_cases taken
        generalize isOutcome : (reactor, seen) = outcome at cased
        cases cased with
        | addListener _ isFree =>
            obtain ⟨rfl, rfl⟩ := Prod.mk.inj isOutcome
            exact tied.addListener isFree time
    | accept slot clientfd nonblocking time =>
        obtain ⟨rfl, rfl⟩ := Prod.mk.inj (Option.some.inj stepped)
        have cased := step_cases taken
        generalize isOutcome : (reactor, seen) = outcome at cased
        cases cased with
        | noClient =>
            obtain ⟨rfl, rfl⟩ := Prod.mk.inj isOutcome
            rw [carrying, List.map_nil, List.append_nil]
            exact tied
        | accept _ _ _ isFree =>
            obtain ⟨rfl, rfl⟩ := Prod.mk.inj isOutcome
            exact tied.accept isFree nonblocking time
    | sweep now =>
        obtain ⟨rfl, rfl⟩ := Prod.mk.inj (Option.some.inj stepped)
        have cased := step_cases taken
        generalize isOutcome : (reactor, seen) = outcome at cased
        cases cased with
        | sweep =>
            have swept := tied.sweep now 100
            rw [← isOutcome] at swept
            exact swept

end

/-- The clients of the reactor are served in turn, each by what it has said itself. -/
theorem exec_echoes {taken : Nat → Bool} {calls : List Call} {state : Echoing} {events : List Passed}
    (exec : (machine taken).Exec calls state events) : Historically InTurn events := by
  have tied : Tied taken state events := by
    induction exec with
    | start =>
        refine ⟨kept_start taken, fun k => slotTied_of_unused ?_, historically_nil⟩
        simp [machine, Reactor.machine]
    | step before stepped inductionHypothesis => exact inductionHypothesis.step stepped
  exact tied.inTurn

/-- One client is answered in part and leaves; the next one has its slot. -/
theorem twoClients_echo :
    ∃ state events,
      (machine (fun fd => fd < 4)).Exec
        [.addListener 4 0, .accept 4 (some 5) true 1, .recv 5 [104, 105] 2, .send 5 1 3, .recv 5 [] 4,
          .accept 4 (some 5) true 5, .recv 5 [111] 6, .send 5 1 7] state events ∧
      Historically InTurn events := by
  have ran := (machine (fun fd => fd < 4)).exec_of_isSome
    [.addListener 4 0, .accept 4 (some 5) true 1, .recv 5 [104, 105] 2, .send 5 1 3, .recv 5 [] 4,
      .accept 4 (some 5) true 5, .recv 5 [111] 6, .send 5 1 7] (by decide +kernel)
  exact ⟨_, _, ran, exec_echoes ran⟩

end SimpleBasicComponents.Reactor.Echo
