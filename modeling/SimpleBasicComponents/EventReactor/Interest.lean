import SimpleBasicComponents.EventReactor.Model

/-!
What the reactor watches.

Owns: the connections that a history shows, what a step can do, and the invariant
of the states of a run: the socket and the connections are watched for input, and
nothing is ever watched for output. The handlers ask for output with an
`EPOLL_CTL_ADD`, which the kernel refuses for a descriptor that it watches already,
so `handle_write` is never called and nothing is ever sent.
-/

namespace SimpleBasicComponents.EventReactor

open SimpleBasicComponents.Semantics

/-! ### Items of one block -/

section

variable {reactor : Reactor} {block : ItemBlock} {fd other : Nat}

theorem item_eq (isHead : reactor.head = [block]) (fd : Nat) :
    reactor.item fd = if fd < maxItemsSize then some (block fd) else none := by
  unfold Reactor.item itemblockFindNitem
  rw [isHead]
  by_cases small : fd < maxItemsSize
  · rw [if_pos small, Nat.div_eq_of_lt small, Nat.mod_eq_of_lt small]
    rfl
  · rw [if_neg small]
    have page : 1 ≤ fd / maxItemsSize :=
      (Nat.one_le_div_iff (by decide)).mpr (Nat.le_of_not_lt small)
    obtain ⟨rest, more⟩ := Nat.exists_eq_add_of_le' page
    rw [more]
    cases rest <;> rfl

theorem itemblockFindNitem_eq (isHead : reactor.head = [block]) (small : fd < maxItemsSize) :
    itemblockFindNitem reactor.head fd = some (some (block fd)) := by
  unfold itemblockFindNitem
  rw [isHead, Nat.div_eq_of_lt small, Nat.mod_eq_of_lt small]
  rfl

theorem setItem_eq (isHead : reactor.head = [block]) (small : fd < maxItemsSize) (item : NItem) :
    reactor.setItem fd item = { reactor with head := [Function.update block fd item] } := by
  unfold Reactor.setItem
  rw [isHead, Nat.div_eq_of_lt small, Nat.mod_eq_of_lt small]
  rfl

end

/-! ### What a history shows -/

/-- Whether the descriptor is a connection, and what the last event makes of it. -/
def noteConnection (connected : Nat → Bool) : Event → Nat → Bool
  | .accepted fd => Function.update connected fd true
  | .closed fd => Function.update connected fd false
  | _ => connected

/-- The connections that have been accepted and not been closed. -/
def connections (events : List Event) : Nat → Bool := events.foldl noteConnection fun _ => false

theorem connections_append (events shown : List Event) :
    connections (events ++ shown) = shown.foldl noteConnection (connections events) :=
  List.foldl_append

def Event.isSent : Event → Bool
  | .sent _ _ => true
  | _ => false

/-- The socket and the connections are watched for input, and nothing else is watched. Their
slots have the handlers for it. -/
structure Watched (serverFd : Nat) (reactor : Reactor) (block : ItemBlock) (connected : Nat → Bool) :
    Prop where
  head : reactor.head = [block]
  server : reactor.serverFd = serverFd
  isOpen : ∀ fd, fd = serverFd ∨ connected fd = true → reactor.kernel.isOpen fd = true
  interest : ∀ fd, reactor.kernel.interest fd =
    if fd = serverFd ∨ connected fd = true then some epollin else none
  small : ∀ fd, fd = serverFd ∨ connected fd = true → fd < maxItemsSize
  accept : (block serverFd).acceptHandle = some .handleAccept
  read : ∀ fd, connected fd = true → (block fd).readHandle = some .handleRead
  apart : connected serverFd = false

/-! ### What a step can do -/

/-- The item after `recv` has answered `received` and `handle_write` has been asked for. -/
def NItem.readInto (item : NItem) (fd : Nat) : Option (List UInt8) → NItem
  | none =>
      { item with
        bufRLen := item.bufRLen + sizeOf none
        fd := fd
        writeHandle := some .handleWrite }
  | some data =>
      { item.store data with
        bufRLen := item.bufRLen + sizeOf (some data.length)
        fd := fd
        writeHandle := some .handleWrite }

/-- The steps from a state that is watched so, one constructor for each way a step can go. -/
inductive Step (reactor : Reactor) (block : ItemBlock) (connected : Nat → Bool) :
    Ready → Reactor → List Event → Prop
  | acceptFailed {ready : Ready} (isServer : ready.fd = reactor.serverFd)
      (failed : ready.answers.connfd = none) :
      Step reactor block connected ready reactor [.acceptFailed]
  | accepted {ready : Ready} {connfd : Nat} (isServer : ready.fd = reactor.serverFd) (answer : ready.answers.connfd = some connfd)
      (fresh : reactor.kernel.isOpen connfd = false) (small : connfd < maxItemsSize) :
      Step reactor block connected ready
        { reactor with
          head := [Function.update block connfd
            { block connfd with fd := connfd, readHandle := some .handleRead }]
          kernel := (reactor.kernel.openFd connfd).epollAdd connfd epollin }
        [.accepted connfd]
  | beyond {ready : Ready} {connfd : Nat} {next : Reactor} (isServer : ready.fd = reactor.serverFd)
      (answer : ready.answers.connfd = some connfd) (large : maxItemsSize ≤ connfd) (crashed : next.crashed = true) :
      Step reactor block connected ready next [.accepted connfd]
  | nothing {ready : Ready} (isConnection : connected ready.fd = true)
      (noInput : has ready.events epollin = false) : Step reactor block connected ready reactor []
  | closed {ready : Ready} (isConnection : connected ready.fd = true)
      (ended : ready.answers.received = some []) :
      Step reactor block connected ready
        { reactor with kernel := reactor.kernel.close ready.fd } [.closed ready.fd]
  | read {ready : Ready} {received : Option (List UInt8)} (isConnection : connected ready.fd = true)
      (answer : ready.answers.received = received) (something : received ≠ some [])
      (fits : ∀ data ∈ received, data.length ≤ (block ready.fd).room.toNat)
      (inside : received ≠ none → (block ready.fd).bufRLen ≤ bufferSize) :
      Step reactor block connected ready
        { reactor with
          head := [Function.update block ready.fd ((block ready.fd).readInto ready.fd received)] }
        [.read ready.fd received ((block ready.fd).readInto ready.fd received).msg]
  | outside {ready : Ready} {data : List UInt8} (isConnection : connected ready.fd = true)
      (input : has ready.events epollin = true) (answer : ready.answers.received = some data) (something : data ≠ [])
      (past : bufferSize < (block ready.fd).bufRLen) :
      Step reactor block connected ready reactor.crash []

section

variable {serverFd : Nat} {reactor next : Reactor} {block : ItemBlock} {connected : Nat → Bool}
  {ready : Ready} {events shown : List Event} {fd : Nat}

/-- Watched for input, a descriptor is not reported to be ready for output. -/
theorem not_has_epollout {events : UInt32}
    (reported : events &&& ~~~(epollin ||| epollerr ||| epollhup) = 0) :
    has events epollout = false := by
  have kept : events &&& epollout = events &&& ~~~(epollin ||| epollerr ||| epollhup) &&& epollout := by
    rw [UInt32.and_assoc]
    rfl
  unfold has
  rw [kept, reported, UInt32.zero_and]
  rfl

theorem epollAdd_watched (watched : reactor.kernel.interest fd ≠ none) (events : UInt32) :
    reactor.epollAdd fd events = reactor := by
  unfold Reactor.epollAdd Kernel.epollAdd
  rw [if_neg (fun both => watched both.2)]

/-- The request for output is refused, the handler is noted. -/
theorem reactorSetEvent_write (isHead : reactor.head = [block]) (small : fd < maxItemsSize)
    (watched : reactor.kernel.interest fd ≠ none) (handle : Handle) :
    reactorSetEvent reactor fd handle writeEvent =
      { reactor with
        head := [Function.update block fd { block fd with fd := fd, writeHandle := some handle }] } := by
  have isItem := (item_eq isHead fd).trans (if_pos small)
  unfold reactorSetEvent
  rw [isItem]
  simp only [writeEvent, readEvent, Nat.one_ne_zero, if_false, if_true]
  rw [epollAdd_watched, setItem_eq isHead small]
  exact watched

theorem sizeOf_eq_zero_iff {n : Nat} (bound : n < 2 ^ 64) : sizeOf (some n) = 0 ↔ n = 0 := by
  unfold sizeOf
  rw [← UInt64.toNat_inj, UInt64.toNat_ofNat_of_lt' bound]
  rfl

/-- The item is written twice, for `recv` and for the handler. -/
theorem reactorSetEvent_setItem (isHead : reactor.head = [block]) (small : fd < maxItemsSize)
    (watched : reactor.kernel.interest fd ≠ none) (item : NItem) :
    reactorSetEvent (reactor.setItem fd item) fd .handleWrite writeEvent =
      { reactor with
        head := [Function.update block fd { item with fd := fd, writeHandle := some .handleWrite }] } := by
  have written := @reactorSetEvent_write { reactor with head := [Function.update block fd item] }
    (Function.update block fd item) fd rfl small watched .handleWrite
  rw [setItem_eq isHead small, written, Function.update_self, Function.update_idem]

theorem handleRead_step (isHead : reactor.head = [block])
    (watched : reactor.kernel.interest ready.fd ≠ none) (small : ready.fd < maxItemsSize)
    (isConnection : connected ready.fd = true) (input : has ready.events epollin = true)
    (fits : ∀ data ∈ ready.answers.received, data.length ≤ (block ready.fd).room.toNat) :
    Step reactor block connected ready (handleRead reactor ready.fd ready.answers.received).1
      (handleRead reactor ready.fd ready.answers.received).2 := by
  have isItem := (item_eq isHead ready.fd).trans (if_pos small)
  unfold handleRead
  rw [isItem]
  cases answer : ready.answers.received with
  | none =>
      have notZero : ¬ sizeOf none = 0 := by decide
      simp only [Option.map_none, if_neg notZero]
      rw [reactorSetEvent_setItem isHead small watched]
      exact .read isConnection answer (by simp) (by simp) (fun something => absurd rfl something)
  | some data =>
      have bound := fits data answer
      have isZero : sizeOf (some data.length) = 0 ↔ data.length = 0 :=
        sizeOf_eq_zero_iff (bound.trans_lt (UInt64.toNat_lt _))
      simp only [Option.map_some, isZero]
      split
      · rename_i empty
        exact .closed isConnection (by rw [answer, List.length_eq_zero_iff.mp empty])
      · rename_i something
        have nonempty : data ≠ [] := fun empty => something (by rw [empty]; rfl)
        split
        · rename_i past
          exact .outside isConnection input answer nonempty past
        · rename_i inside
          rw [reactorSetEvent_setItem isHead small watched]
          exact .read isConnection answer (fun empty => nonempty (Option.some.inj empty))
            (fun other same => Option.some.inj same ▸ bound) (fun _ => UInt64.not_lt.mp inside)

theorem handleAccept_step (isHead : reactor.head = [block]) (isServer : ready.fd = reactor.serverFd)
    (fresh : ∀ connfd ∈ ready.answers.connfd, reactor.kernel.isOpen connfd = false) :
    Step reactor block connected ready (handleAccept reactor ready.answers.connfd).1
      (handleAccept reactor ready.answers.connfd).2 := by
  cases answer : ready.answers.connfd with
  | none => exact .acceptFailed isServer answer
  | some connfd =>
      let opened : Reactor := { reactor with kernel := reactor.kernel.openFd connfd }
      have isItem := @item_eq opened block isHead connfd
      unfold handleAccept reactorSetEvent
      by_cases small : connfd < maxItemsSize
      · rw [if_pos small] at isItem
        have isSet := @setItem_eq opened block connfd isHead small
        simp only [opened] at isItem isSet
        simp only [isItem, if_true, isSet]
        exact .accepted isServer answer (fresh connfd answer) small
      · rw [if_neg small] at isItem
        simp only [opened] at isItem
        simp only [isItem]
        exact .beyond isServer answer (Nat.le_of_not_lt small) rfl

/-- The inversion of `step`, used by every invariant below. -/
theorem step_cases (watched : Watched serverFd reactor block connected)
    (taken : step reactor ready = some (next, shown)) :
    Step reactor block connected ready next shown := by
  unfold step at taken
  split at taken
  · contradiction
  · rename_i running
    split at taken
    · rename_i reports
      obtain ⟨rfl, rfl⟩ := Prod.mk.inj (Option.some.inj taken)
      have ⟨events, isWatched, reported⟩ := reports.watched
      have entry := watched.interest ready.fd
      rw [isWatched] at entry
      split at entry
      · rename_i registered
        obtain rfl := Option.some.inj entry
        have small := watched.small ready.fd registered
        have isItem := (item_eq watched.head ready.fd).trans (if_pos small)
        have fits : ∀ data ∈ ready.answers.received, data.length ≤ (block ready.fd).room.toNat :=
          fun data member => reports.receivable data member _ isItem
        rw [itemblockFindNitem_eq watched.head small, watched.server]
        by_cases isServer : ready.fd = serverFd
        · have handle : (block ready.fd).acceptHandle = some .handleAccept := isServer ▸ watched.accept
          simp only [if_pos isServer, Option.bind_some, handle]
          exact handleAccept_step watched.head (isServer.trans watched.server.symm) reports.fresh
        · have isConnection := registered.resolve_left isServer
          simp only [if_neg isServer, not_has_epollout reported, Bool.false_and, Bool.false_eq_true,
            if_false, Option.bind_some, watched.read ready.fd isConnection]
          split
          · rename_i input
            exact handleRead_step watched.head (by rw [isWatched]; simp) small isConnection input fits
          · rename_i noInput
            exact .nothing isConnection (by simpa using noInput)
      · contradiction
    · contradiction

/-- After a crash there is no step. -/
theorem running_of_step (taken : step reactor ready = some (next, shown)) :
    reactor.crashed = false := by
  by_contra stopped
  rw [Bool.not_eq_false] at stopped
  have refused : step reactor ready = none := if_pos stopped
  exact absurd (refused.symm.trans taken) (by simp)

theorem Watched.write (watched : Watched serverFd reactor block connected) {item : NItem}
    (accept : item.acceptHandle = (block fd).acceptHandle)
    (read : item.readHandle = (block fd).readHandle) :
    Watched serverFd { reactor with head := [Function.update block fd item] }
      (Function.update block fd item) connected where
  head := rfl
  server := watched.server
  isOpen := watched.isOpen
  interest := watched.interest
  small := watched.small
  accept := by
    by_cases same : serverFd = fd
    · rw [same, Function.update_self, accept, ← same]
      exact watched.accept
    · rw [Function.update_of_ne same]
      exact watched.accept
  read other isConnection := by
    by_cases same : other = fd
    · rw [same, Function.update_self, read, ← same]
      exact watched.read other isConnection
    · rw [Function.update_of_ne same]
      exact watched.read other isConnection
  apart := watched.apart

theorem Watched.accepted (watched : Watched serverFd reactor block connected)
    (fresh : reactor.kernel.isOpen fd = false) (small : fd < maxItemsSize) :
    Watched serverFd
      { reactor with
        head := [Function.update block fd { block fd with fd := fd, readHandle := some .handleRead }]
        kernel := (reactor.kernel.openFd fd).epollAdd fd epollin }
      (Function.update block fd { block fd with fd := fd, readHandle := some .handleRead })
      (Function.update connected fd true) := by
  have isNew : ¬ (fd = serverFd ∨ connected fd = true) := by
    intro registered
    have isOpen := watched.isOpen fd registered
    rw [fresh] at isOpen
    contradiction
  have notServer : fd ≠ serverFd := fun same => isNew (.inl same)
  have unwatched : reactor.kernel.interest fd = none := (watched.interest fd).trans (if_neg isNew)
  have added : (reactor.kernel.openFd fd).epollAdd fd epollin =
      { isOpen := Function.update reactor.kernel.isOpen fd true
        interest := Function.update reactor.kernel.interest fd (some epollin) } :=
    if_pos ⟨Function.update_self _ _ _, unwatched⟩
  rw [added]
  constructor
  case head => rfl
  case server => exact watched.server
  case isOpen =>
    intro other registered
    by_cases same : other = fd
    · rw [same]
      exact Function.update_self _ _ _
    · rw [Function.update_of_ne same] at registered
      exact (Function.update_of_ne same _ _).trans (watched.isOpen other registered)
  case interest =>
    intro other
    by_cases same : other = fd
    · rw [same, Function.update_self, if_pos (.inr rfl)]
      exact Function.update_self _ _ _
    · rw [Function.update_of_ne same]
      exact (Function.update_of_ne same _ _).trans (watched.interest other)
  case small =>
    intro other registered
    by_cases same : other = fd
    · rw [same]
      exact small
    · rw [Function.update_of_ne same] at registered
      exact watched.small other registered
  case accept =>
    rw [Function.update_of_ne notServer.symm]
    exact watched.accept
  case read =>
    intro other registered
    by_cases same : other = fd
    · rw [same, Function.update_self]
    · rw [Function.update_of_ne same] at registered ⊢
      exact watched.read other registered
  case apart =>
    rw [Function.update_of_ne notServer.symm]
    exact watched.apart

theorem Watched.closed (watched : Watched serverFd reactor block connected)
    (isConnection : connected fd = true) :
    Watched serverFd { reactor with kernel := reactor.kernel.close fd } block
      (Function.update connected fd false) := by
  have notServer : fd ≠ serverFd := by
    intro same
    rw [same, watched.apart] at isConnection
    contradiction
  constructor
  case head => exact watched.head
  case server => exact watched.server
  case isOpen =>
    intro other registered
    by_cases same : other = fd
    · rw [same, Function.update_self] at registered
      exact absurd registered (by simp [notServer])
    · rw [Function.update_of_ne same] at registered
      exact (Function.update_of_ne same _ _).trans (watched.isOpen other registered)
  case interest =>
    intro other
    by_cases same : other = fd
    · rw [same, Function.update_self, if_neg (by simp [notServer])]
      exact Function.update_self _ _ _
    · rw [Function.update_of_ne same]
      exact (Function.update_of_ne same _ _).trans (watched.interest other)
  case small =>
    intro other registered
    by_cases same : other = fd
    · rw [same, Function.update_self] at registered
      exact absurd registered (by simp [notServer])
    · rw [Function.update_of_ne same] at registered
      exact watched.small other registered
  case accept => exact watched.accept
  case read =>
    intro other registered
    by_cases same : other = fd
    · rw [same, Function.update_self] at registered
      contradiction
    · rw [Function.update_of_ne same] at registered
      exact watched.read other registered
  case apart =>
    rw [Function.update_of_ne notServer.symm]
    exact watched.apart

/-- Every step that goes well keeps it, and none sends. -/
theorem step_watched (watched : Watched serverFd reactor block (connections events))
    (taken : step reactor ready = some (next, shown)) :
    (∀ event ∈ shown, event.isSent = false) ∧
      (next.crashed = false →
        ∃ block, Watched serverFd next block (connections (events ++ shown))) := by
  rw [connections_append]
  cases step_cases watched taken with
  | acceptFailed isServer failed => exact ⟨by simp [Event.isSent], fun _ => ⟨block, watched⟩⟩
  | accepted isServer answer fresh small =>
      exact ⟨by simp [Event.isSent], fun _ => ⟨_, watched.accepted fresh small⟩⟩
  | beyond isServer answer large crashed =>
      refine ⟨by simp [Event.isSent], fun running => ?_⟩
      rw [crashed] at running
      contradiction
  | nothing isConnection noInput => exact ⟨by simp, fun _ => ⟨block, watched⟩⟩
  | closed isConnection ended => exact ⟨by simp [Event.isSent], fun _ => ⟨block, watched.closed isConnection⟩⟩
  | @read received isConnection answer something fits inside =>
      refine ⟨by simp [Event.isSent], fun _ => ⟨_, watched.write ?_ ?_⟩⟩
      · cases received <;> rfl
      · cases received <;> rfl
  | outside isConnection input answer something past =>
      exact ⟨by simp, fun running => absurd running (by simp [Reactor.crash])⟩

end

/-! ### Whole runs -/

section

variable {taken : Nat → Bool} {serverFd : Nat} {readies : List Ready} {reactor : Reactor}
  {events : List Event}

/-- The state in which the loop begins. -/
theorem reactorInit_eq (taken : Nat → Bool) (small : serverFd < maxItemsSize) :
    reactorInit taken serverFd =
      ⟨[Function.update itemblockCreate serverFd
          { itemblockCreate serverFd with fd := serverFd, acceptHandle := some .handleAccept }],
        serverFd,
        ⟨Function.update taken serverFd true, Function.update (fun _ => none) serverFd (some epollin)⟩,
        false⟩ := by
  let made : Reactor :=
    ⟨[itemblockCreate], serverFd, ⟨Function.update taken serverFd true, fun _ => none⟩, false⟩
  have isItem := (@item_eq made itemblockCreate rfl serverFd).trans (if_pos small)
  have isSet := @setItem_eq made itemblockCreate serverFd rfl small
  have added : (⟨Function.update taken serverFd true, fun _ => none⟩ : Kernel).epollAdd serverFd epollin =
      ⟨Function.update taken serverFd true, Function.update (fun _ => none) serverFd (some epollin)⟩ :=
    if_pos ⟨Function.update_self _ _ _, rfl⟩
  have notRead : ¬ acceptEvent = readEvent := by decide
  have notWrite : ¬ acceptEvent = writeEvent := by decide
  unfold reactorInit reactorSetEvent
  simp only [made] at isItem isSet
  simp only [isItem, isSet, Reactor.epollAdd, added, if_neg notRead, if_neg notWrite, if_true]

/-- A socket without a slot is the end. -/
theorem small_of_running (running : (reactorInit taken serverFd).crashed = false) :
    serverFd < maxItemsSize := by
  by_contra large
  let made : Reactor :=
    ⟨[itemblockCreate], serverFd, ⟨Function.update taken serverFd true, fun _ => none⟩, false⟩
  have isItem := (@item_eq made itemblockCreate rfl serverFd).trans (if_neg large)
  unfold reactorInit reactorSetEvent at running
  simp only [made] at isItem
  simp only [isItem] at running
  contradiction

theorem watched_start (running : (reactorInit taken serverFd).crashed = false) :
    ∃ block, Watched serverFd (reactorInit taken serverFd) block (connections []) := by
  have small := small_of_running running
  have registered : ∀ fd, fd = serverFd ∨ connections [] fd = true → fd = serverFd := by
    intro fd either
    exact either.resolve_right (by simp [connections])
  rw [reactorInit_eq taken small]
  refine ⟨_, rfl, rfl, ?_, ?_, ?_, ?_, fun fd isConnection => ?_, rfl⟩
  · intro fd either
    rw [registered fd either]
    exact Function.update_self _ _ _
  · intro fd
    by_cases same : fd = serverFd
    · rw [if_pos (.inl same), same]
      exact Function.update_self _ _ (fun _ => (none : Option UInt32))
    · rw [if_neg (fun either => same (registered fd either))]
      exact Function.update_of_ne same _ (fun _ => (none : Option UInt32))
  · intro fd either
    rw [registered fd either]
    exact small
  · rw [Function.update_self]
  · contradiction

theorem exec_watched (ran : (machine taken serverFd).Exec readies reactor events) :
    (∀ event ∈ events, event.isSent = false) ∧
      (reactor.crashed = false → ∃ block, Watched serverFd reactor block (connections events)) := by
  induction ran with
  | start => exact ⟨by simp, watched_start⟩
  | @step readies reactor next events shown ready _ taken inductionHypothesis =>
      have ⟨block, watched⟩ := inductionHypothesis.2 (running_of_step taken)
      have ⟨silent, kept⟩ := step_watched watched taken
      refine ⟨?_, kept⟩
      intro event member
      cases List.mem_append.mp member with
      | inl earlier => exact inductionHypothesis.1 event earlier
      | inr now => exact silent event now

/-- A connection comes, sends two bytes, and waits for the echo. -/
def unanswered : List Ready :=
  [⟨4, epollin, { connfd := some 5 }⟩, ⟨5, epollin, { received := some [104, 105] }⟩]

end

end SimpleBasicComponents.EventReactor
