import Mathlib.Algebra.GroupWithZero.Nat
import Mathlib.Logic.Function.Basic
import SimpleBasicComponents.Semantics.Machine

/-!
The reactor of `src/reactor.c`.

Owns: the blocks of items, `itemblock_find_nitem`, `reactor_set_event`, the three
handlers, the body of the loop of `reactor_run`, and a machine whose labels are the
events that `epoll_wait` reports, each with what the system calls answer during it.

The kernel is the descriptors that are open and the interest set of the epoll
instance. It reports what a descriptor is watched for, and errors and hang-ups in
any case; it adds no descriptor twice; closing a descriptor takes it out of the
set. `epoll_wait` does not fail here: the -1 of one that does is compared as
unsigned, and the loop goes over old entries and past `event_array`. `arg` is null
in every call and is left out.
-/

namespace SimpleBasicComponents.EventReactor

open SimpleBasicComponents.Semantics

def maxItemsSize : Nat := 1024
def bufferSize : UInt64 := 1024

def readEvent : Nat := 0
def writeEvent : Nat := 1
def acceptEvent : Nat := 2

def epollin : UInt32 := 1
def epollout : UInt32 := 4
def epollerr : UInt32 := 8
def epollhup : UInt32 := 16

inductive Handle where
  | handleRead
  | handleWrite
  | handleAccept
deriving DecidableEq, Repr

/-- `struct nitem`; both buffers have `BUFFER_SIZE` bytes. -/
structure NItem where
  fd : Nat := 0
  writeHandle : Option Handle := none
  readHandle : Option Handle := none
  acceptHandle : Option Handle := none
  bufWrite : Nat → UInt8 := fun _ => 0
  bufRead : Nat → UInt8 := fun _ => 0
  bufWLen : UInt64 := 0
  bufWOff : UInt64 := 0
  bufRLen : UInt64 := 0

/-- The `item_array` of a block; `next` is the order of the list of blocks. -/
abbrev ItemBlock := Nat → NItem

/-- What `itemblock_create` allocates. -/
def itemblockCreate : ItemBlock := fun _ => {}

structure Kernel where
  isOpen : Nat → Bool
  interest : Nat → Option UInt32

structure Reactor where
  head : List ItemBlock
  serverFd : Nat
  kernel : Kernel
  /-- The code has used a null pointer, or memory that is not the buffer's. -/
  crashed : Bool

inductive Event where
  | accepted (fd : Nat)
  | acceptFailed
  | closed (fd : Nat)
  /-- `recv` returned the bytes, or -1, and the buffer was printed. -/
  | read (fd : Nat) (received : Option (List UInt8)) (msg : List UInt8)
  /-- What `send` returned for `fd`, null for -1. -/
  | sent (fd : Nat) (nwrite : Option Nat)
deriving DecidableEq, Repr

/-! ### Items -/

/-- `page_num` times `block = block->next`; null where `next` of a null block is read. -/
def nextBlocks : Nat → List ItemBlock → Option (List ItemBlock)
  | 0, blocks => some blocks
  | _ + 1, [] => none
  | pageNum + 1, _ :: blocks => nextBlocks pageNum blocks

/-- No result where the walk leaves the list; the result may be `NULL`. -/
def itemblockFindNitem (head : List ItemBlock) (fd : Nat) : Option (Option NItem) :=
  if head.isEmpty then some none
  else
    match nextBlocks (fd / maxItemsSize) head with
    | none => none
    | some [] => some none
    | some (block :: _) => some (some (block (fd % maxItemsSize)))

namespace Kernel

/-- `EPOLL_CTL_ADD`. -/
def epollAdd (kernel : Kernel) (fd : Nat) (events : UInt32) : Kernel :=
  if kernel.isOpen fd = true ∧ kernel.interest fd = none then
    { kernel with interest := Function.update kernel.interest fd (some events) }
  else kernel

def openFd (kernel : Kernel) (fd : Nat) : Kernel :=
  { kernel with isOpen := Function.update kernel.isOpen fd true }

def close (kernel : Kernel) (fd : Nat) : Kernel :=
  { isOpen := Function.update kernel.isOpen fd false
    interest := Function.update kernel.interest fd none }

end Kernel

namespace Reactor

/-- The item that the code works on; without one it uses a null pointer. -/
def item (reactor : Reactor) (fd : Nat) : Option NItem :=
  (itemblockFindNitem reactor.head fd).join

def setItem (reactor : Reactor) (fd : Nat) (item : NItem) : Reactor :=
  { reactor with
    head := reactor.head.modify (fd / maxItemsSize) fun block =>
      Function.update block (fd % maxItemsSize) item }

def crash (reactor : Reactor) : Reactor := { reactor with crashed := true }

/-- `epoll_ctl(reactor->epfd, EPOLL_CTL_ADD, fd, &ep_event)`. -/
def epollAdd (reactor : Reactor) (fd : Nat) (events : UInt32) : Reactor :=
  { reactor with kernel := reactor.kernel.epollAdd fd events }

end Reactor

def reactorSetEvent (reactor : Reactor) (fd : Nat) (handle : Handle) (event : Nat) : Reactor :=
  match reactor.item fd with
  | none => reactor.crash
  | some item =>
      if event = readEvent then
        let item := { item with fd := fd, readHandle := some handle }
        (reactor.setItem fd item).epollAdd fd epollin
      else if event = writeEvent then
        let item := { item with fd := fd, writeHandle := some handle }
        (reactor.setItem fd item).epollAdd fd epollout
      else if event = acceptEvent then
        let item := { item with fd := fd, acceptHandle := some handle }
        (reactor.setItem fd item).epollAdd fd epollin
      else reactor

/-! ### Handlers -/

/-- The value of `recv` and `send` in a `size_t`. -/
def sizeOf : Option Nat → UInt64
  | none => -1
  | some n => UInt64.ofNat n

/-- The text that `printf` finds in the buffer. -/
def NItem.msg (item : NItem) : List UInt8 :=
  ((List.range bufferSize.toNat).map item.bufRead).takeWhile (· ≠ 0)

/-- `recv` has put the bytes at `buffer + *len`. -/
def NItem.store (item : NItem) (data : List UInt8) : NItem :=
  { item with
    bufRead := fun i =>
      if item.bufRLen.toNat ≤ i then data.getD (i - item.bufRLen.toNat) (item.bufRead i)
      else item.bufRead i }

/-- The bytes that `recv` may deliver. -/
def NItem.room (item : NItem) : UInt64 := bufferSize - item.bufRLen

def handleRead (reactor : Reactor) (fd : Nat) (received : Option (List UInt8)) :
    Reactor × List Event :=
  match reactor.item fd with
  | none => (reactor.crash, [])
  | some item =>
      let nread := sizeOf (received.map List.length)
      if nread = 0 then ({ reactor with kernel := reactor.kernel.close fd }, [.closed fd])
      else
        match received with
        | none =>
            -- No other value of a `size_t` is negative, so this is taken for a length.
            let item := { item with bufRLen := item.bufRLen + nread }
            (reactorSetEvent (reactor.setItem fd item) fd .handleWrite writeEvent,
              [.read fd none item.msg])
        | some data =>
            -- From `2^63` on, `buffer + *len` is in front of the buffer.
            if item.bufRLen > bufferSize then (reactor.crash, [])
            else
              let item := { item.store data with bufRLen := item.bufRLen + nread }
              (reactorSetEvent (reactor.setItem fd item) fd .handleWrite writeEvent,
                [.read fd (some data) item.msg])

def handleWrite (reactor : Reactor) (fd : Nat) (sent : Option Nat) : Reactor × List Event :=
  match reactor.item fd with
  | none => (reactor.crash, [])
  | some item =>
      let item := { item with bufWOff := item.bufWOff + sizeOf sent }
      if item.bufWOff = item.bufWLen then
        let cleared := { item with
          bufWrite := fun i => if i < item.bufWLen.toNat then 0 else item.bufWrite i
          bufWOff := 0
          bufWLen := 0 }
        (reactorSetEvent (reactor.setItem fd cleared) fd .handleRead readEvent, [.sent fd sent])
      else (reactorSetEvent (reactor.setItem fd item) fd .handleWrite writeEvent, [.sent fd sent])

/-- A null descriptor is a failure of `accept`. -/
def handleAccept (reactor : Reactor) (connfd : Option Nat) : Reactor × List Event :=
  match connfd with
  | none => (reactor, [.acceptFailed])
  | some connfd =>
      (reactorSetEvent { reactor with kernel := reactor.kernel.openFd connfd } connfd .handleRead
          readEvent,
        [.accepted connfd])

/-! ### The loop -/

/-- What `accept`, `recv` and `send` answer. -/
structure Answers where
  connfd : Option Nat := none
  received : Option (List UInt8) := none
  sent : Option Nat := none
deriving DecidableEq, Repr

/-- A call through a function pointer. -/
def callHandle (reactor : Reactor) (fd : Nat) (answers : Answers) : Option Handle → Reactor × List Event
  | none => (reactor.crash, [])
  | some .handleRead => handleRead reactor fd answers.received
  | some .handleWrite => handleWrite reactor fd answers.sent
  | some .handleAccept => handleAccept reactor answers.connfd

/-- `events` has a bit in common with the flag. -/
def has (events flag : UInt32) : Bool := events &&& flag != 0

/-- One event of `event_array`. `write_handle` is read after `read_handle` has been called. -/
def serveEvent (reactor : Reactor) (clientfd : Nat) (epEvent : UInt32) (answers : Answers) :
    Reactor × List Event :=
  match itemblockFindNitem reactor.head clientfd with
  | none => (reactor.crash, [])
  | some nitem =>
      if clientfd = reactor.serverFd then
        callHandle reactor clientfd answers (nitem.bind NItem.acceptHandle)
      else
        let (reactor, shown) :=
          if has epEvent epollin then
            callHandle reactor clientfd answers (nitem.bind NItem.readHandle)
          else (reactor, [])
        if has epEvent epollout && !reactor.crashed then
          let (reactor, later) :=
            callHandle reactor clientfd answers ((reactor.item clientfd).bind NItem.writeHandle)
          (reactor, shown ++ later)
        else (reactor, shown)

structure Ready where
  fd : Nat
  events : UInt32
  answers : Answers := {}
deriving DecidableEq, Repr

/-- What `recv` may return: no more than what fits, and something if it is not the end. -/
def Reactor.Receivable (reactor : Reactor) (fd : Nat) (received : Option (List UInt8)) : Prop :=
  ∀ data ∈ received, ∀ item ∈ reactor.item fd, data.length ≤ item.room.toNat

instance (reactor : Reactor) (fd : Nat) (received : Option (List UInt8)) :
    Decidable (reactor.Receivable fd received) := by
  unfold Reactor.Receivable
  infer_instance

/-- The event and the answers are some that the kernel gives. -/
structure Reactor.Reports (reactor : Reactor) (ready : Ready) : Prop where
  watched : ∃ events ∈ reactor.kernel.interest ready.fd,
    ready.events &&& ~~~(events ||| epollerr ||| epollhup) = 0
  fresh : ∀ connfd ∈ ready.answers.connfd, reactor.kernel.isOpen connfd = false
  receivable : reactor.Receivable ready.fd ready.answers.received

instance (reactor : Reactor) (ready : Ready) : Decidable (reactor.Reports ready) :=
  decidable_of_iff
    ((∃ events ∈ reactor.kernel.interest ready.fd,
        ready.events &&& ~~~(events ||| epollerr ||| epollhup) = 0) ∧
      (∀ connfd ∈ ready.answers.connfd, reactor.kernel.isOpen connfd = false) ∧
      reactor.Receivable ready.fd ready.answers.received)
    ⟨fun both => ⟨both.1, both.2.1, both.2.2⟩, fun all => ⟨all.watched, all.fresh, all.receivable⟩⟩

def step (reactor : Reactor) (ready : Ready) : Option (Reactor × List Event) :=
  if reactor.crashed then none
  else if reactor.Reports ready then some (serveEvent reactor ready.fd ready.events ready.answers)
  else none

/-- `reactor_init` has got its memory, the epoll instance and the socket `serverFd`; `taken` are
the descriptors that are open, the socket not among them. -/
def reactorInit (taken : Nat → Bool) (serverFd : Nat) : Reactor :=
  reactorSetEvent
    ⟨[itemblockCreate], serverFd, ⟨Function.update taken serverFd true, fun _ => none⟩, false⟩
    serverFd .handleAccept acceptEvent

/-- `reactor_run`. -/
def machine (taken : Nat → Bool) (serverFd : Nat) : Machine Reactor Ready Event where
  start := reactorInit taken serverFd
  step := step

end SimpleBasicComponents.EventReactor
