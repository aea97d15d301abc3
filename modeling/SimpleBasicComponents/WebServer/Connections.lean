import Mathlib.Data.List.Forall2
import SimpleBasicComponents.Semantics.Projection
import SimpleBasicComponents.WebServer.Dispatch

/-!
The connections of the whole server.

Owns: what every state of a run keeps, what a step can do, and the theorem that no
event is ever stale and that each descriptor goes through a run of the model of a single
connection, whatever the other clients do.
-/

namespace SimpleBasicComponents.WebServer

open SimpleBasicComponents.Semantics

namespace Server

open Table (Lined Extends homeOf)

variable {grants : Nat → Bool} {fuel : Nat} {files : FileSystem} {server next : Server} {table grown final : Table}
  {fd other listenfd events : Int} {ev new : Ntyevent} {callback : Callback} {fails : Bool}

/-! ### What every state keeps -/

/-- What a slot may ask for, and with which callback. -/
def Asks (ev : Ntyevent) : Prop :=
  (ev.events = epollin ∧ ev.callback = some .recvCb) ∨ (ev.events = epollout ∧ ev.callback = some .sendCb)

/-- A descriptor in the interest set: the pointer there is to its own slot, and the slot
agrees. -/
structure Watched (listenfd : Int) (server : Server) (fd events : Int) (ptr : EventAddr) : Prop where
  used : Used server fd
  home : ptr = homeOf fd
  sameEvents : (server.slotAt fd).events = events
  client : fd ≠ listenfd → Asks (server.slotAt fd)
  listener : fd = listenfd → events = epollin ∧ (server.slotAt fd).callback = none

structure Sound (listenfd : Int) (server : Server) : Prop where
  sized : Sized server.table
  listening : server.opened listenfd = true
  acceptors : server.acceptors = [homeOf listenfd]
  watched : ∀ fd events ptr, server.interest fd = some (events, ptr) → Watched listenfd server fd events ptr

/-- What is left of a batch: each descriptor once, and still in the interest set for the
event reported. -/
def Batched (server : Server) (fds : List Int) : Prop :=
  fds.Nodup ∧ List.Forall₂ (fun fd check => server.interest fd = some (check.2, check.1)) fds server.pending

theorem forall₂_mem {α β : Type*} {related : α → β → Prop} {left : List α} {right : List β}
    (all : List.Forall₂ related left right) {item : α} (member : item ∈ left) : ∃ other, related item other := by
  induction all with
  | nil => cases member
  | cons here _ inductionHypothesis =>
      cases List.mem_cons.mp member with
      | inl same => exact ⟨_, same ▸ here⟩
      | inr later => exact inductionHypothesis later

theorem Batched.mem_asked {fds : List Int} (batched : Batched server fds) (member : fd ∈ fds) :
    ∃ check : EventAddr × Int, server.interest fd = some (check.2, check.1) :=
  forall₂_mem batched.2 member

/-- A slot that is registered waits for a client that is there. -/
def Settled (fd : Int) (slot : Slot) (isOpen : Bool) : Prop :=
  slot.registered = true → slot.ev.fd = fd ∧ slot.ev.status = 1 ∧ isOpen = true ∧ Asks slot.ev

/-- The steps a client's slot takes in this state, as the model of a single connection
has them. -/
inductive Moves (server : Server) (files : FileSystem) (fd : Int) : Call → Slot → Bool → Prop
  | accept (fails : Bool) (closed : server.opened fd = false) :
      Moves server files fd (.accept fails) (WebServer.acceptCb ⟨server.slotAt fd, false⟩ fd fails) true
  | recv (bytes : List UInt8) (fails : Bool) (slot : Slot) (asked : (server.interest fd).isSome)
      (waits : (server.slotAt fd).events = epollin ∧ (server.slotAt fd).callback = some .recvCb)
      (received : WebServer.recvCb ⟨server.slotAt fd, true⟩ bytes fails = some slot) :
      Moves server files fd (.recv bytes fails) slot (decide (bytes.length > 0))
  | send (sent fails : Bool) (slot : Slot) (asked : (server.interest fd).isSome)
      (waits : (server.slotAt fd).events = epollout ∧ (server.slotAt fd).callback = some .sendCb)
      (isSent : WebServer.sendCb ⟨server.slotAt fd, true⟩ files sent fails = some slot) :
      Moves server files fd (.send sent fails) slot sent

theorem Moves.settled {call : Call} {slot : Slot} {isOpen : Bool} (moves : Moves server files fd call slot isOpen)
    (used : (server.interest fd).isSome → Used server fd) : Settled fd slot isOpen := by
  cases moves with
  | accept fails closed =>
      have isSlot : (WebServer.acceptCb ⟨server.slotAt fd, false⟩ fd fails).registered = true →
          (WebServer.acceptCb ⟨server.slotAt fd, false⟩ fd fails).ev =
            { server.slotAt fd with fd := fd, callback := some .recvCb, events := epollin, status := 1 } := by
        by_cases isOne : (server.slotAt fd).status = 1 <;> cases fails <;>
          simp [WebServer.acceptCb, WebServer.ntyEventSet, WebServer.ntyEventAdd, WebServer.epollCtl, isOne]
      intro registered
      rw [isSlot registered]
      exact ⟨rfl, rfl, rfl, .inl ⟨rfl, rfl⟩⟩
  | recv bytes fails slot asked waits received =>
      obtain ⟨_, _, _, _, sameFd, status⟩ := used asked
      unfold WebServer.recvCb at received
      by_cases delivered : bytes.length > 0
      · simp only [if_pos delivered, Option.bind_eq_bind, Option.bind_eq_some_iff] at received
        obtain ⟨got, isGot, request, requested, isSlot⟩ := received
        obtain ⟨gotFd, gotStatus⟩ := receive_frame isGot
        obtain ⟨requestFd, requestStatus⟩ := httpRequest_frame requested
        have isOne : request.status = 1 := by rw [requestStatus, gotStatus, status]
        have isRearmed : rearmed request .sendCb epollout fails = slot := Option.some.inj isSlot
        rw [rearmed_eq isOne] at isRearmed
        rw [← isRearmed]
        intro _
        have isFd : request.fd = fd := by rw [requestFd, gotFd, sameFd]
        exact ⟨isFd, rfl, decide_eq_true delivered, .inr ⟨rfl, rfl⟩⟩
      · rw [if_neg delivered] at received
        rw [← Option.some.inj received]
        intro registered
        cases registered
  | send sent fails slot asked waits isSent =>
      obtain ⟨_, _, _, _, sameFd, status⟩ := used asked
      unfold WebServer.sendCb at isSent
      simp only [Option.bind_eq_bind, Option.bind_eq_some_iff] at isSent
      obtain ⟨response, _, isSlot⟩ := isSent
      have answerFd := httpResponse_fd (server.slotAt fd) files
      have answerStatus := (httpResponse_frame (server.slotAt fd) files).2.1
      generalize (httpResponse (server.slotAt fd) files).1 = answer at isSlot answerFd answerStatus
      have isOne : answer.status = 1 := by rw [answerStatus, status]
      cases isOpen with
      | true =>
          have isRearmed : rearmed answer .recvCb epollin fails = slot := Option.some.inj isSlot
          rw [rearmed_eq isOne] at isRearmed
          rw [← isRearmed]
          intro _
          have isFd : answer.fd = fd := by rw [answerFd, sameFd]
          exact ⟨isFd, rfl, rfl, .inl ⟨rfl, rfl⟩⟩
      | false =>
          have isFreed : (WebServer.ntyEventDel ⟨answer, false⟩).1 = slot := Option.some.inj isSlot
          have notRegistered : slot.registered = false := by
            rw [← isFreed]
            simp [WebServer.ntyEventDel, WebServer.epollCtl, isOne]
          intro registered
          rw [notRegistered] at registered
          cases registered

/-- One client's step keeps what holds of all descriptors, and leaves the rest of the batch
to come. -/
theorem Sound.after {slot : Slot} {isOpen : Bool} {fds : List Int} (sound : Sound listenfd server)
    (batched : Batched server fds) (notNegative : 0 ≤ fd) (small : fd < 2 ^ 31) (isClient : fd ≠ listenfd)
    (notInBatch : fd ∉ fds) (settled : Settled fd slot isOpen) (after : After server fd slot isOpen next) :
    Sound listenfd next ∧ Batched next fds := by
  have ⟨found, interest, opened, pending, acceptors, sized, others, there⟩ := after
  have sameInterest : ∀ other, other ≠ fd → next.interest other = server.interest other := by
    intro other different
    rw [interest, Function.update_of_ne different]
  have sameOpened : ∀ other, other ≠ fd → next.opened other = server.opened other := by
    intro other different
    rw [opened, Function.update_of_ne different]
  refine ⟨⟨sized, ?_, ?_, ?_⟩, batched.1, ?_⟩
  · rw [sameOpened listenfd (Ne.symm isClient)]
    exact sound.listening
  · rw [acceptors]
    exact sound.acceptors
  · intro other events ptr asked
    by_cases same : other = fd
    · rw [same, interest, Function.update_self] at asked
      rw [same]
      have isSlot : next.slotAt fd = slot.ev := slotIn_eq found
      by_cases registered : slot.registered = true
      · rw [if_pos registered] at asked
        have ⟨isEvents, isPtr⟩ := Prod.mk.inj (Option.some.inj asked)
        have ⟨sameFd, isOne, nowOpen, asks⟩ := settled registered
        refine ⟨⟨notNegative, small, ?_, ?_, ?_, ?_⟩, isPtr.symm, ?_, ?_,
          fun isListener => absurd isListener isClient⟩
        · rw [opened, Function.update_self, nowOpen]
        · rw [found]
          rfl
        · rw [isSlot, sameFd]
        · rw [isSlot, isOne]
        · rw [isSlot, isEvents]
        · intro _
          rw [isSlot]
          exact asks
      · rw [if_neg registered] at asked
        cases asked
    · rw [sameInterest other same] at asked
      have ⟨⟨positive, fits, isOpenOther, isThere, sameFd, status⟩, home, sameEvents, client, listener⟩ :=
        sound.watched other events ptr asked
      have sameSlot := others other positive same
      refine ⟨⟨positive, fits, ?_, there _ isThere, ?_, ?_⟩, home, ?_, ?_, ?_⟩
      · rw [sameOpened other same, isOpenOther]
      · rw [sameSlot, sameFd]
      · rw [sameSlot, status]
      · rw [sameSlot, sameEvents]
      · rw [sameSlot]
        exact client
      · rw [sameSlot]
        exact listener
  · have others : ∀ other ∈ fds, other ≠ fd := fun other member same => notInBatch (same ▸ member)
    rw [pending]
    apply ((List.forall₂_and_left _ _).mpr ⟨others, batched.2⟩).imp
    intro other check both
    rw [sameInterest other both.1]
    exact both.2

/-- More descriptors may be open, and the batch may be another one. -/
theorem Sound.congr (sound : Sound listenfd server) (sameTable : next.table = server.table)
    (sameAcceptors : next.acceptors = server.acceptors) (sameInterest : next.interest = server.interest)
    (more : ∀ fd, server.opened fd = true → next.opened fd = true) : Sound listenfd next where
  sized := by rw [sameTable]; exact sound.sized
  listening := more _ sound.listening
  acceptors := by rw [sameAcceptors]; exact sound.acceptors
  watched fd events ptr asked := by
    rw [sameInterest] at asked
    have ⟨⟨notNegative, small, isOpen, there, sameFd, status⟩, home, sameEvents, client, listener⟩ :=
      sound.watched fd events ptr asked
    have sameSlot : next.slotAt fd = server.slotAt fd := by rw [slotAt, slotAt, sameTable]
    rw [← sameSlot] at sameFd status sameEvents client listener
    rw [← sameTable] at there
    exact ⟨⟨notNegative, small, more fd isOpen, there, sameFd, status⟩, home, sameEvents, client, listener⟩

theorem Watched.bit {ptr : EventAddr} (watched : Watched listenfd server fd events ptr) :
    events = epollin ∨ events = epollout := by
  by_cases isListener : fd = listenfd
  · exact .inl (watched.listener isListener).1
  · rw [← watched.sameEvents]
    exact (watched.client isListener).imp And.left And.left

theorem Watched.read {ptr : EventAddr} (watched : Watched listenfd server fd events ptr) :
    server.table.read ptr = some (server.slotAt fd) := by
  have ⟨ev, found⟩ := Option.isSome_iff_exists.mp watched.used.there
  rw [watched.home, found, slotAt, slotIn_eq found]

/-! ### Batches -/

theorem checks_spec (sound : Sound listenfd server) {ready : Ready} (reports : server.Reports ready) :
    server.checks ready = [] ∨
      ∃ events ptr, server.interest ready.fd = some (events, ptr) ∧ server.checks ready = [(ptr, events)] := by
  have ⟨fd, readable, writable⟩ := ready
  cases asked : server.interest fd with
  | none =>
      rw [Reports, asked] at reports
      exact reports.elim
  | some entry =>
      have ⟨events, ptr⟩ := entry
      rw [Reports, asked] at reports
      have ⟨isReadable, isWritable⟩ := reports
      cases (sound.watched fd events ptr asked).bit with
      | inl isIn =>
          rw [isIn] at asked isReadable isWritable
          have notWritable : writable = false := by
            cases writable with
            | false => rfl
            | true => exact absurd (isWritable rfl) (by decide)
          cases readable with
          | false => exact .inl (by simp [checks, asked, notWritable])
          | true => exact .inr ⟨epollin, ptr, by rw [isIn], by simp [checks, asked, notWritable]⟩
      | inr isOut =>
          rw [isOut] at asked isReadable isWritable
          have notReadable : readable = false := by
            cases readable with
            | false => rfl
            | true => exact absurd (isReadable rfl) (by decide)
          cases writable with
          | false => exact .inl (by simp [checks, asked, notReadable])
          | true => exact .inr ⟨epollout, ptr, by rw [isOut], by simp [checks, asked, notReadable]⟩

theorem batch_of_reports (sound : Sound listenfd server) (ready : List Ready)
    (reports : ∀ one ∈ ready, server.Reports one) :
    ∃ fds : List Int, fds.Sublist (ready.map Ready.fd) ∧
      List.Forall₂ (fun fd check => server.interest fd = some (check.2, check.1)) fds
        (ready.flatMap server.checks) := by
  induction ready with
  | nil => exact ⟨[], List.Sublist.refl _, .nil⟩
  | cons one rest inductionHypothesis =>
      have ⟨fds, sub, batched⟩ :=
        inductionHypothesis fun other member => reports other (List.mem_cons_of_mem _ member)
      rw [List.map_cons, List.flatMap_cons]
      cases checks_spec sound (reports one List.mem_cons_self) with
      | inl nothing =>
          rw [nothing]
          exact ⟨fds, sub.cons _, batched⟩
      | inr something =>
          have ⟨events, ptr, asked, isCheck⟩ := something
          rw [isCheck]
          exact ⟨one.fd :: fds, sub.cons_cons _, .cons asked batched⟩

/-! ### Steps -/

/-- What a step can do: it waits, `accept_cb` has no client to set up, or one client's slot
takes a step of its own. -/
inductive Stepped (listenfd : Int) (files : FileSystem) (server next : Server) : List Event → Prop
  | waits (pending : List (EventAddr × Int)) (isNext : next = { server with pending := pending }) :
      Stepped listenfd files server next []
  | refuses (rest : List (EventAddr × Int)) (opened : Int → Bool)
      (more : ∀ fd, server.opened fd = true → opened fd = true)
      (isNext : next = { server with pending := rest, opened := opened }) :
      Stepped listenfd files server next [.refused]
  | moves (fd : Int) (call : Call) (slot : Slot) (isOpen : Bool) (rest : List (EventAddr × Int))
      (notNegative : 0 ≤ fd) (isClient : fd ≠ listenfd) (moved : Moves server files fd call slot isOpen)
      (after : After { server with pending := rest } fd slot isOpen next) :
      Stepped listenfd files server next [.called fd call]

/-- Of a client that is not in the rest of the batch. -/
theorem Sound.moves {slot : Slot} {isOpen : Bool} {fds : List Int} {call : Call} {rest : List (EventAddr × Int)}
    (sound : Sound listenfd server) (batched : Batched { server with pending := rest } fds) (notNegative : 0 ≤ fd)
    (small : fd < 2 ^ 31) (isClient : fd ≠ listenfd) (notInBatch : fd ∉ fds)
    (moved : Moves server files fd call slot isOpen)
    (after : After { server with pending := rest } fd slot isOpen next) :
    Sound listenfd next ∧ Batched next fds ∧ Stepped listenfd files server next [.called fd call] := by
  have settled : Settled fd slot isOpen := by
    apply moved.settled
    intro isAsked
    have ⟨entry, asked⟩ := Option.isSome_iff_exists.mp isAsked
    exact (sound.watched fd entry.1 entry.2 asked).used
  have soundRest : Sound listenfd { server with pending := rest } := sound.congr rfl rfl rfl fun _ isOpen => isOpen
  have ⟨soundNext, batchedNext⟩ := soundRest.after batched notNegative small isClient notInBatch settled after
  exact ⟨soundNext, batchedNext, .moves fd call slot isOpen rest notNegative isClient moved after⟩

/-- No event is stale: the slot still asks for it. -/
theorem Watched.turn_eq {ptr : EventAddr} {rest : List (EventAddr × Int)}
    (watched : Watched listenfd server fd events ptr) (isPending : server.pending = (ptr, events) :: rest)
    (answer : Answer) :
    server.turn grants fuel files answer =
      Server.callback grants fuel files { server with pending := rest } ptr (server.slotAt fd) answer := by
  have asks : asksFor (server.slotAt fd).events events = true := by
    rw [watched.sameEvents]
    cases watched.bit with
    | inl isIn => rw [isIn]; decide
    | inr isOut => rw [isOut]; decide
  simp only [turn, isPending, watched.read, asks, if_true]

theorem Watched.handler_listener {ptr : EventAddr} {rest : List (EventAddr × Int)}
    (watched : Watched listenfd server listenfd events ptr) (acceptors : server.acceptors = [homeOf listenfd]) :
    Server.handler { server with pending := rest } ptr = some .acceptCb := by
  have isNone := (watched.listener rfl).2
  have isThere := watched.read
  rw [watched.home] at isThere ⊢
  simp only [handler, isThere, isNone, acceptors, List.mem_singleton, if_true]

theorem Watched.handler_client {ptr : EventAddr} {rest : List (EventAddr × Int)}
    (watched : Watched listenfd server fd events ptr) (isCallback : (server.slotAt fd).callback = some callback) :
    Server.handler { server with pending := rest } ptr = some (.client callback) := by
  simp only [handler, watched.read, isCallback]

/-- The turn of a client's slot that waits for a request. -/
theorem Watched.turn_recv {ptr : EventAddr} {rest : List (EventAddr × Int)}
    (watched : Watched listenfd server fd events ptr) (isPending : server.pending = (ptr, events) :: rest)
    (isCallback : (server.slotAt fd).callback = some .recvCb) (bytes : List UInt8) (fails : Bool) :
    server.turn grants fuel files (.received bytes fails) =
      (Server.recvCb grants fuel { server with pending := rest } fd bytes fails).map fun next =>
        (next, [.called fd (.recv bytes fails)]) := by
  have isHandler := @Watched.handler_client _ _ _ _ _ _ rest watched isCallback
  rw [watched.turn_eq isPending]
  unfold Server.callback
  rw [isHandler, watched.used.sameFd]
  simp only
  cases Server.recvCb grants fuel { server with pending := rest } fd bytes fails <;> rfl

theorem Watched.turn_send {ptr : EventAddr} {rest : List (EventAddr × Int)}
    (watched : Watched listenfd server fd events ptr) (isPending : server.pending = (ptr, events) :: rest)
    (isCallback : (server.slotAt fd).callback = some .sendCb) (sent fails : Bool) :
    server.turn grants fuel files (.sent sent fails) =
      (Server.sendCb grants fuel { server with pending := rest } files fd sent fails).map fun next =>
        (next, [.called fd (.send sent fails)]) := by
  have isHandler := @Watched.handler_client _ _ _ _ _ _ rest watched isCallback
  rw [watched.turn_eq isPending]
  unfold Server.callback
  rw [isHandler, watched.used.sameFd]
  simp only
  cases Server.sendCb grants fuel { server with pending := rest } files fd sent fails <;> rfl

theorem Used.rest (used : Used server fd) (rest : List (EventAddr × Int)) :
    Used { server with pending := rest } fd :=
  ⟨used.notNegative, used.small, used.isOpen, used.there, used.sameFd, used.status⟩

/-- The turn of the listening slot. -/
theorem Sound.turn_listener {ptr : EventAddr} {rest : List (EventAddr × Int)} {fds : List Int} {answer : Answer}
    {shown : List Event} (sound : Sound listenfd server) (granted : ∀ n, grants n = true) (enough : 2 ^ 21 < fuel)
    (asked : server.interest listenfd = some (events, ptr)) (isPending : server.pending = (ptr, events) :: rest)
    (batched : Batched { server with pending := rest } fds)
    (taken : server.turn grants fuel files answer = some (next, shown)) :
    Sound listenfd next ∧ Batched next fds ∧ Stepped listenfd files server next shown := by
  have watched := sound.watched listenfd events ptr asked
  have isHandler := @Watched.handler_listener _ _ _ _ rest watched sound.acceptors
  rw [watched.turn_eq isPending] at taken
  unfold Server.callback at taken
  rw [isHandler] at taken
  cases answer with
  | received bytes fails => cases taken
  | sent delivers fails => cases taken
  | accepted accepted nonblocking fails =>
      simp only at taken
      split at taken
      · rename_i may
        cases accepted with
        | none =>
            obtain ⟨rfl, rfl⟩ := Prod.mk.inj (Option.some.inj taken)
            exact ⟨sound.congr rfl rfl rfl fun _ isOpen => isOpen, batched,
              .refuses rest server.opened (fun _ isOpen => isOpen) rfl⟩
        | some clientfd =>
            have ⟨notNegative, small, closed⟩ := may
            have notListener : clientfd ≠ listenfd := by
              intro same
              have listening := sound.listening
              rw [← same] at listening
              exact absurd (listening.symm.trans closed) (by decide)
            have unasked : server.interest clientfd = none := by
              cases isAsked : server.interest clientfd with
              | none => rfl
              | some entry =>
                  have isOpen := (sound.watched clientfd entry.1 entry.2 isAsked).used.isOpen
                  exact absurd (isOpen.symm.trans closed) (by decide)
            cases nonblocking with
            | false =>
                obtain ⟨rfl, rfl⟩ := Prod.mk.inj (Option.some.inj taken)
                have more : ∀ fd, server.opened fd = true →
                    Function.update server.opened clientfd true fd = true := by
                  intro fd isOpen
                  by_cases same : fd = clientfd
                  · rw [same, Function.update_self]
                  · rw [Function.update_of_ne same, isOpen]
                exact ⟨sound.congr rfl rfl rfl more, batched, .refuses rest _ more rfl⟩
            | true =>
                have notInBatch : clientfd ∉ fds := by
                  intro member
                  have ⟨check, isWatched⟩ := batched.mem_asked member
                  rw [unasked] at isWatched
                  cases isWatched
                have ⟨other, accepts, after⟩ := @acceptCb_spec _ _ { server with pending := rest } clientfd
                  granted enough sound.sized notNegative small unasked fails
                rw [accepts] at taken
                obtain ⟨rfl, rfl⟩ := Prod.mk.inj (Option.some.inj taken)
                exact sound.moves batched notNegative small notListener notInBatch (.accept fails closed) after
      · cases taken

/-- The turn of a client's slot. -/
theorem Sound.turn_client {ptr : EventAddr} {rest : List (EventAddr × Int)} {fds : List Int} {answer : Answer}
    {shown : List Event} (sound : Sound listenfd server) (granted : ∀ n, grants n = true) (enough : 2 ^ 21 < fuel)
    (isClient : fd ≠ listenfd) (asked : server.interest fd = some (events, ptr))
    (isPending : server.pending = (ptr, events) :: rest) (notInBatch : fd ∉ fds)
    (batched : Batched { server with pending := rest } fds)
    (taken : server.turn grants fuel files answer = some (next, shown)) :
    Sound listenfd next ∧ Batched next fds ∧ Stepped listenfd files server next shown := by
  have watched := sound.watched fd events ptr asked
  have isAsked : (server.interest fd).isSome := by rw [asked]; rfl
  have used := watched.used
  cases watched.client isClient with
  | inl receives =>
      have isHandler := @Watched.handler_client _ _ _ _ _ _ rest watched receives.2
      cases answer with
      | received bytes fails =>
          rw [watched.turn_recv isPending receives.2, Option.map_eq_some_iff] at taken
          have ⟨other, isOther, isTaken⟩ := taken
          obtain ⟨rfl, rfl⟩ := Prod.mk.inj isTaken
          have follows := (used.rest rest).recvCb granted enough sound.sized bytes fails
          rw [isOther] at follows
          have ⟨slot, isSlot, after⟩ := follows.of_some
          exact sound.moves batched used.notNegative used.small isClient notInBatch
            (.recv bytes fails slot isAsked receives isSlot) after
      | accepted clientfd nonblocking fails =>
          rw [watched.turn_eq isPending] at taken
          unfold Server.callback at taken
          rw [isHandler] at taken
          cases taken
      | sent delivers fails =>
          rw [watched.turn_eq isPending] at taken
          unfold Server.callback at taken
          rw [isHandler] at taken
          cases taken
  | inr sends =>
      have isHandler := @Watched.handler_client _ _ _ _ _ _ rest watched sends.2
      cases answer with
      | sent delivers fails =>
          rw [watched.turn_send isPending sends.2, Option.map_eq_some_iff] at taken
          have ⟨other, isOther, isTaken⟩ := taken
          obtain ⟨rfl, rfl⟩ := Prod.mk.inj isTaken
          have follows := (used.rest rest).sendCb granted enough sound.sized files delivers fails
          rw [isOther] at follows
          have ⟨slot, isSlot, after⟩ := follows.of_some
          exact sound.moves batched used.notNegative used.small isClient notInBatch
            (.send delivers fails slot isAsked sends isSlot) after
      | accepted clientfd nonblocking fails =>
          rw [watched.turn_eq isPending] at taken
          unfold Server.callback at taken
          rw [isHandler] at taken
          cases taken
      | received bytes fails =>
          rw [watched.turn_eq isPending] at taken
          unfold Server.callback at taken
          rw [isHandler] at taken
          cases taken

/-- The first event of the rest of a batch. -/
theorem Batched.first {fds : List Int} {ptr : EventAddr} {bit : Int} {rest : List (EventAddr × Int)}
    (batched : Batched server fds) (isPending : server.pending = (ptr, bit) :: rest) :
    ∃ fd others, server.interest fd = some (bit, ptr) ∧ fd ∉ others ∧
      Batched { server with pending := rest } others := by
  have ⟨nodup, related⟩ := batched
  rw [isPending] at related
  cases related with
  | cons asked related =>
      rename_i fd others
      have ⟨notLater, nodupOthers⟩ := List.nodup_cons.mp nodup
      exact ⟨fd, others, asked, notLater, nodupOthers, related⟩

theorem step_spec {label : Label} {shown : List Event} {fds : List Int} (granted : ∀ n, grants n = true)
    (enough : 2 ^ 21 < fuel) (sound : Sound listenfd server) (batched : Batched server fds)
    (taken : server.step grants fuel files label = some (next, shown)) :
    Sound listenfd next ∧ (∃ others, Batched next others) ∧ Stepped listenfd files server next shown := by
  cases label with
  | wait ready =>
      simp only [step] at taken
      split at taken
      · rename_i may
        have ⟨_, nodup, _, reports⟩ := may
        obtain ⟨rfl, rfl⟩ := Prod.mk.inj (Option.some.inj taken)
        have ⟨others, sub, related⟩ := batch_of_reports sound ready reports
        exact ⟨sound.congr rfl rfl rfl fun _ isOpen => isOpen, ⟨others, nodup.sublist sub, related⟩, .waits _ rfl⟩
      · cases taken
  | turn answer =>
      have isTurn : server.turn grants fuel files answer = some (next, shown) := taken
      cases isPending : server.pending with
      | nil =>
          simp only [turn, isPending] at isTurn
          cases isTurn
      | cons check rest =>
          have ⟨ptr, bit⟩ := check
          have ⟨fd, others, asked, notInBatch, batchedRest⟩ := batched.first isPending
          by_cases isListener : fd = listenfd
          · rw [isListener] at asked
            have ⟨soundNext, batchedNext, stepped⟩ :=
              sound.turn_listener granted enough asked isPending batchedRest isTurn
            exact ⟨soundNext, ⟨others, batchedNext⟩, stepped⟩
          · have ⟨soundNext, batchedNext, stepped⟩ :=
              sound.turn_client granted enough isListener asked isPending notInBatch batchedRest isTurn
            exact ⟨soundNext, ⟨others, batchedNext⟩, stepped⟩

/-! ### The start -/

theorem read_init (granted : ∀ n, grants n = true) {epfd : Int} (isOpen : 0 < epfd) {ptr : EventAddr}
    (found : (Table.ntyreactorInit grants epfd).1.read ptr = some ev) : ev = {} := by
  have isTable : Table.ntyreactorInit grants epfd = (⟨⟨epfd, 1, some 0⟩, [some ⟨none, 0⟩],
      [some (List.replicate maxEpollEvents {})], 2⟩, 0) := by
    simp [Table.ntyreactorInit, Table.newBlock, granted, Int.not_le.mpr isOpen, Heap.alloc]
  rw [isTable, Table.read] at found
  split at found
  · rename_i held isHeld
    split at found
    · have isFirst : held = List.replicate maxEpollEvents {} := by
        have below := Heap.lt_length_of_load isHeld
        have isZero : ptr.1 = 0 := Nat.lt_one_iff.mp below
        rw [isZero] at isHeld
        exact (Option.some.inj isHeld).symm
      rw [isFirst] at found
      exact List.eq_of_mem_replicate (List.mem_of_getElem? found)
    · cases found
  · cases found

theorem create_spec (granted : ∀ n, grants n = true) (enough : 2 ^ 21 < fuel) {epfd : Int} (isOpen : 0 < epfd)
    (notNegative : 0 ≤ listenfd) (small : listenfd < 2 ^ 31) (fails : Bool) :
    ∃ start, create grants fuel epfd listenfd fails = some start ∧ Sound listenfd start ∧ Batched start [] ∧
      ∀ fd, 0 ≤ fd → fd ≠ listenfd → start.slotAt fd = {} ∧ start.interest fd = none := by
  have lined := Table.lined_init granted isOpen
  generalize isInit : (Table.ntyreactorInit grants epfd).1 = init at lined
  have zeroed : ∀ fd, slotIn init fd = {} := by
    intro fd
    cases found : init.read (homeOf fd) with
    | none => rw [slotIn, found]; rfl
    | some ev =>
        rw [slotIn_eq found]
        rw [← isInit] at found
        exact read_init granted isOpen found
  obtain ⟨table, looks, sized, isThere, extended⟩ := @idx_spec _ _
    (⟨init, [], fun fd => fd = epfd || fd = listenfd, fun _ => none, []⟩ : Server) listenfd granted enough
    ⟨1, lined, by decide⟩ notNegative small
  obtain ⟨ev, found⟩ := Option.isSome_iff_exists.mp isThere
  have isZero : ev = {} := by
    rw [← slotIn_eq found, slotIn_of_extends extended]
    exact zeroed listenfd
  obtain ⟨aimed, writes, foundAimed, keptAimed⟩ :=
    write_spec notNegative found { ev with fd := listenfd, callback := none, events := 0 }
  obtain ⟨added, result, adds, reads, kept⟩ := @ntyEventAdd_spec
    (⟨aimed, [homeOf listenfd], fun fd => fd = epfd || fd = listenfd, fun _ => none, []⟩ : Server) listenfd _
    notNegative foundAimed rfl (by simp) rfl epollin fails
  have isSlot : (WebServer.ntyEventAdd ⟨{ ev with fd := listenfd, callback := none, events := 0 }, false⟩ epollin
      fails).1 = ⟨{ fd := listenfd, events := epollin, status := 1 }, !fails⟩ := by
    rw [isZero]
    cases fails <;> rfl
  rw [isSlot] at adds reads
  have keptAll := keptAimed.trans kept
  refine ⟨⟨added, [homeOf listenfd], fun fd => fd = epfd || fd = listenfd,
    Function.update (fun _ => none) listenfd (if (!fails) = true then some (epollin, homeOf listenfd) else none), []⟩,
    ?_, ⟨keptAll.sized sized, by simp, rfl, ?_⟩, ⟨List.nodup_nil, .nil⟩, ?_⟩
  · have hasBlock : init.reactor.evblk ≠ none := by rw [lined.head]; simp
    have stores : Server.write ⟨table, [], fun fd => fd = epfd || fd = listenfd, fun _ => none, []⟩ (homeOf listenfd)
        { ev with fd := listenfd, callback := none, events := 0 } = some _ := write_eq writes
    simp only [create, ntyreactorAddlistener, isInit, if_neg hasBlock, looks, ntyEventSet, found, stores,
      Option.bind_eq_bind, Option.bind_some, Option.pure_def, adds]
  · intro fd events ptr asked
    by_cases isListener : fd = listenfd
    · have isAdded : slotIn added listenfd = { fd := listenfd, events := epollin, status := 1 } := slotIn_eq reads
      cases fails with
      | true => simp [isListener] at asked
      | false =>
          have isEntry : (epollin, homeOf listenfd) = (events, ptr) := by simpa [isListener] using asked
          obtain ⟨rfl, rfl⟩ := Prod.mk.inj isEntry
          rw [isListener]
          refine ⟨⟨notNegative, small, by simp, by rw [reads]; rfl, ?_, ?_⟩, rfl, ?_,
            fun isClient => absurd rfl isClient, fun _ => ⟨rfl, ?_⟩⟩
          all_goals rw [slotAt, isAdded]
    · simp only [Function.update_of_ne isListener] at asked
      cases asked
  · intro fd positive isClient
    refine ⟨?_, ?_⟩
    · rw [slotAt, keptAll.others fd positive isClient, slotIn_of_extends extended]
      exact zeroed fd
    · simp only [Function.update_of_ne isClient]

/-! ### Runs -/

/-- The calls that a descriptor's slot has had. -/
def callsOf (fd : Int) : Event → List Call
  | .called other call => if other = fd then [call] else []
  | _ => []

/-- The call that an answer makes of a client's turn. -/
def Answer.call : Answer → Option Call
  | .accepted _ _ _ => none
  | .received bytes fails => some (.recv bytes fails)
  | .sent delivers fails => some (.send delivers fails)

/-- What the whole server has for a descriptor is what the connection's own machine has. -/
structure Sees (fd : Int) (server : Server) (own : Connection) : Prop where
  slot : own.slot = ⟨server.slotAt fd, (server.interest fd).isSome⟩
  isOpen : own.isOpen = true → server.opened fd = true
  watched : (server.interest fd).isSome → own.isOpen = true

/-- A connection takes the step that its slot takes in the whole server. -/
theorem Moves.step {call : Call} {slot : Slot} {isOpen : Bool} {own : Connection}
    (moved : Moves server files fd call slot isOpen) (sees : Sees fd server own) :
    WebServer.step fd files own call = some (⟨slot, isOpen⟩, []) := by
  have ⟨isSlot, isOpenOwn, watched⟩ := sees
  cases moved with
  | accept fails closed =>
      have notOpen : own.isOpen = false := by
        rw [← Bool.not_eq_true]
        intro isOpen
        exact absurd ((isOpenOwn isOpen).symm.trans closed) (by decide)
      have unasked : (server.interest fd).isSome = false := by
        rw [← Bool.not_eq_true]
        intro asked
        exact absurd ((watched asked).symm.trans notOpen) (by decide)
      rw [unasked] at isSlot
      simp [WebServer.step, notOpen, isSlot]
  | recv bytes fails slot asked waits received =>
      rw [asked] at isSlot
      have awaits : own.Awaits .recvCb epollin :=
        ⟨watched asked, by rw [isSlot], by rw [isSlot]; exact waits.2, by rw [isSlot]; exact waits.1⟩
      simp only [WebServer.step, if_pos awaits, isSlot, received, Option.map_some]
  | send sent fails slot asked waits isSent =>
      rw [asked] at isSlot
      have awaits : own.Awaits .sendCb epollout :=
        ⟨watched asked, by rw [isSlot], by rw [isSlot]; exact waits.2, by rw [isSlot]; exact waits.1⟩
      simp only [WebServer.step, if_pos awaits, isSlot, isSent, Option.map_some]

/-- At each step a descriptor's slot stands still or moves as its own machine does. -/
theorem Stepped.partStep {shown : List Event} {own : Connection} (stepped : Stepped listenfd files server next shown)
    (sound : Sound listenfd server) (notNegative : 0 ≤ fd) (sees : Sees fd server own) :
    Machine.PartStep (WebServer.machine fd files) (Sees fd) (shown.flatMap (callsOf fd)) next own := by
  cases stepped with
  | waits pending isNext =>
      rw [isNext]
      exact .inl ⟨rfl, sees.slot, sees.isOpen, sees.watched⟩
  | refuses rest opened more isNext =>
      rw [isNext]
      exact .inl ⟨rfl, sees.slot, fun isOpen => more fd (sees.isOpen isOpen), sees.watched⟩
  | moves mover call slot isOpen rest positive isClient moved after =>
      rw [List.flatMap_singleton]
      by_cases same : mover = fd
      · obtain rfl := same
        have settled : Settled mover slot isOpen := by
          apply moved.settled
          intro isAsked
          have ⟨entry, asked⟩ := Option.isSome_iff_exists.mp isAsked
          exact (sound.watched mover entry.1 entry.2 asked).used
        have isSome : (next.interest mover).isSome = slot.registered := by
          rw [after.interest, Function.update_self]
          cases slot.registered <;> rfl
        refine .inr ⟨call, ⟨slot, isOpen⟩, [], if_pos rfl, moved.step sees, ?_, ?_, ?_⟩
        · rw [isSome, slotAt, slotIn_eq after.found]
        · intro nowOpen
          rw [after.opened, Function.update_self]
          exact nowOpen
        · intro asked
          rw [isSome] at asked
          exact (settled asked).2.2.1
      · refine .inl ⟨if_neg same, ?_, ?_, ?_⟩
        · rw [after.others fd notNegative (Ne.symm same), after.interest, Function.update_of_ne (Ne.symm same)]
          exact sees.slot
        · rw [after.opened, Function.update_of_ne (Ne.symm same)]
          exact sees.isOpen
        · rw [after.interest, Function.update_of_ne (Ne.symm same)]
          exact sees.watched

/-- A turn of a client's slot is possible exactly if its own machine can take the call. -/
theorem Sound.turn_isSome {bit : Int} {rest : List (EventAddr × Int)} {fds : List Int} {own : Connection}
    {answer : Answer} {call : Call} (sound : Sound listenfd server) (granted : ∀ n, grants n = true)
    (enough : 2 ^ 21 < fuel)
    (batched : Batched server fds) (notNegative : 0 ≤ fd) (isClient : fd ≠ listenfd) (sees : Sees fd server own)
    (isPending : server.pending = (homeOf fd, bit) :: rest) (isCall : answer.call = some call) :
    (server.turn grants fuel files answer).isSome = (WebServer.step fd files own call).isSome := by
  have ⟨other, _, asked, _, _⟩ := batched.first isPending
  have watched := sound.watched other bit (homeOf fd) asked
  obtain rfl : fd = other := by
    by_contra different
    exact homeOf_ne watched.used.notNegative notNegative different watched.home
  have isAsked : (server.interest fd).isSome = true := by rw [asked]; rfl
  have ⟨isSlot, _, isOpen⟩ := sees
  rw [isAsked] at isSlot
  cases watched.client isClient with
  | inl receives =>
      have isHandler := @Watched.handler_client _ _ _ _ _ _ rest watched receives.2
      cases answer with
      | accepted clientfd nonblocking fails => cases isCall
      | received bytes fails =>
          obtain rfl := Option.some.inj isCall
          have follows := (watched.used.rest rest).recvCb granted enough sound.sized bytes fails
          have awaits : own.Awaits .recvCb epollin :=
            ⟨isOpen isAsked, by rw [isSlot], by rw [isSlot]; exact receives.2, by rw [isSlot]; exact receives.1⟩
          rw [watched.turn_recv isPending receives.2, Option.isSome_map, follows.isSome_eq]
          simp only [WebServer.step, if_pos awaits, isSlot, Option.isSome_map]
          rfl
      | sent delivers fails =>
          obtain rfl := Option.some.inj isCall
          have notAwaits : ¬ own.Awaits .sendCb epollout := by
            intro awaits
            have isSend := awaits.2.2.1
            rw [isSlot] at isSend
            exact absurd (receives.2.symm.trans isSend) (by decide)
          rw [watched.turn_eq isPending]
          unfold Server.callback
          rw [isHandler]
          simp only [WebServer.step, if_neg notAwaits]
          rfl
  | inr sends =>
      have isHandler := @Watched.handler_client _ _ _ _ _ _ rest watched sends.2
      cases answer with
      | accepted clientfd nonblocking fails => cases isCall
      | sent delivers fails =>
          obtain rfl := Option.some.inj isCall
          have follows := (watched.used.rest rest).sendCb granted enough sound.sized files delivers fails
          have awaits : own.Awaits .sendCb epollout :=
            ⟨isOpen isAsked, by rw [isSlot], by rw [isSlot]; exact sends.2, by rw [isSlot]; exact sends.1⟩
          rw [watched.turn_send isPending sends.2, Option.isSome_map, follows.isSome_eq]
          simp only [WebServer.step, if_pos awaits, isSlot, Option.isSome_map]
          rfl
      | received bytes fails =>
          obtain rfl := Option.some.inj isCall
          have notAwaits : ¬ own.Awaits .recvCb epollin := by
            intro awaits
            have isRecv := awaits.2.2.1
            rw [isSlot] at isRecv
            exact absurd (sends.2.symm.trans isRecv) (by decide)
          rw [watched.turn_eq isPending]
          unfold Server.callback
          rw [isHandler]
          simp only [WebServer.step, if_neg notAwaits]
          rfl

section

variable {labels : List Label} {shown : List Event} {epfd : Int} {start : Server}

theorem exec_sound (granted : ∀ n, grants n = true) (enough : 2 ^ 21 < fuel) (epfdOpen : 0 < epfd)
    (notNegative : 0 ≤ listenfd) (small : listenfd < 2 ^ 31)
    (isCreated : create grants fuel epfd listenfd fails = some start)
    (exec : (machine grants fuel files start).Exec labels server shown) :
    Sound listenfd server ∧ (∃ fds, Batched server fds) ∧ ∀ ptr, .stale ptr ∉ shown := by
  induction exec with
  | start =>
      have ⟨other, isOther, sound, batched, _⟩ :=
        @create_spec _ _ listenfd granted enough epfd epfdOpen notNegative small fails
      obtain rfl := Option.some.inj (isCreated.symm.trans isOther)
      exact ⟨sound, ⟨[], batched⟩, by simp⟩
  | step before taken inductionHypothesis =>
      rename_i earlier state next shownBefore shown label
      have ⟨sound, ⟨fds, batched⟩, noStale⟩ := inductionHypothesis
      have ⟨soundNext, batchedNext, stepped⟩ := step_spec granted enough sound batched taken
      refine ⟨soundNext, batchedNext, ?_⟩
      intro ptr member
      cases List.mem_append.mp member with
      | inl earlier => exact noStale ptr earlier
      | inr now => cases stepped <;> simp at now

/-- In every run of the whole server no event is stale, and each descriptor but the
listening one goes through a run of the machine of a single connection, which also says
what turns the server can take for it. -/
theorem exec_serves (granted : ∀ n, grants n = true) (enough : 2 ^ 21 < fuel) (epfdOpen : 0 < epfd)
    (positive : 0 ≤ listenfd) (small : listenfd < 2 ^ 31)
    (isCreated : create grants fuel epfd listenfd fails = some start)
    (exec : (machine grants fuel files start).Exec labels server shown) :
    (∀ ptr, .stale ptr ∉ shown) ∧
      ∀ fd, 0 ≤ fd → fd ≠ listenfd →
        ∃ own seen, (WebServer.machine fd files).Exec (shown.flatMap (callsOf fd)) own seen ∧ Sees fd server own ∧
          ∀ bit rest answer call, server.pending = (homeOf fd, bit) :: rest → answer.call = some call →
            (server.turn grants fuel files answer).isSome = (WebServer.step fd files own call).isSome := by
  have ⟨sound, ⟨fds, batched⟩, noStale⟩ := exec_sound granted enough epfdOpen positive small isCreated exec
  refine ⟨noStale, ?_⟩
  intro fd notNegative isClient
  have ⟨other, isOther, _, _, fresh⟩ :=
    @create_spec _ _ listenfd granted enough epfd epfdOpen positive small fails
  obtain rfl := Option.some.inj (isCreated.symm.trans isOther)
  have starts : Sees fd start (WebServer.machine fd files).start := by
    have ⟨isZero, unasked⟩ := fresh fd notNegative isClient
    exact ⟨by rw [isZero, unasked]; rfl, nofun, by rw [unasked]; exact nofun⟩
  have holds : ∀ labels state events, (machine grants fuel files start).Exec labels state events →
      Sound listenfd state ∧ ∃ fds, Batched state fds := by
    intro labels state events ran
    have ⟨soundState, batchedState, _⟩ := exec_sound granted enough epfdOpen positive small isCreated ran
    exact ⟨soundState, batchedState⟩
  have steps : ∀ state label next shown own, (Sound listenfd state ∧ ∃ fds, Batched state fds) →
      (machine grants fuel files start).step state label = some (next, shown) → Sees fd state own →
      Machine.PartStep (WebServer.machine fd files) (Sees fd) (shown.flatMap (callsOf fd)) next own := by
    intro state label next shown own invariant taken sees
    have ⟨soundState, others, batchedState⟩ := invariant
    have ⟨_, _, stepped⟩ := step_spec granted enough soundState batchedState taken
    exact stepped.partStep soundState notNegative sees
  have ⟨own, seen, ran, sees⟩ := Machine.Exec.project (callsOf fd) holds starts steps exec
  exact ⟨own, seen, ran, sees, fun bit rest answer call isPending isCall =>
    sound.turn_isSome granted enough batched notNegative isClient sees isPending isCall⟩

end

/-- A request is answered while a second client comes and goes. -/
def twoBrowsers : List Label :=
  [.wait [⟨4, true, false⟩], .turn (.accepted (some 5) true false),
    .wait [⟨5, true, false⟩, ⟨4, true, false⟩], .turn (.received (ascii "GET / HTTP/1.1\r\n\r\n") false),
    .turn (.accepted (some 6) true false),
    .wait [⟨5, false, true⟩, ⟨6, true, false⟩], .turn (.sent true false), .turn (.received [] false)]

theorem created_of_three : (create (fun _ => true) (2 ^ 21 + 1) 3 4 false).isSome = true := by decide +kernel

theorem twoBrowsers_serves : ∃ start server shown,
    create (fun _ => true) (2 ^ 21 + 1) 3 4 false = some start ∧
    (machine (fun _ => true) (2 ^ 21 + 1) noFiles start).Exec twoBrowsers server shown ∧
    (∀ ptr, .stale ptr ∉ shown) ∧
    ∀ fd, 0 ≤ fd → fd ≠ 4 →
      ∃ own seen, (WebServer.machine fd noFiles).Exec (shown.flatMap (callsOf fd)) own seen ∧ Sees fd server own ∧
        ∀ bit rest answer call, server.pending = (homeOf fd, bit) :: rest → answer.call = some call →
          (server.turn (fun _ => true) (2 ^ 21 + 1) noFiles answer).isSome =
            (WebServer.step fd noFiles own call).isSome := by
  have exec := Machine.exec_of_isSome (machine (fun _ => true) (2 ^ 21 + 1) noFiles (Option.get _ created_of_three))
    twoBrowsers (by decide +kernel)
  have isStart := (Option.some_get created_of_three).symm
  exact ⟨_, _, _, isStart, exec, exec_serves (fun _ => rfl) (Nat.lt_succ_self _) (by decide) (by decide) (by decide)
    isStart exec⟩

end Server

end SimpleBasicComponents.WebServer
