import SimpleBasicComponents.WebServer.FdTable
import SimpleBasicComponents.WebServer.Responses

/-!
The whole of `src/webserver.c`.

Owns: the calls on the event registry, the callbacks and the loop of `ntyreactor_run`
as the source computes them on the descriptor table and the kernel, and a machine
whose labels are the waits and the turns of the loop.

The slots and what `http_request` and `http_response` do to one are those of the
model of a single connection; here a slot is found through `ntyreactor_idx` and
through the pointer that `epoll_wait` gives back. What the kernel answers is in the
labels. `sendfile` changes nothing that the server reads again.
-/

namespace SimpleBasicComponents.WebServer

open SimpleBasicComponents.Semantics

/-- The three callbacks. -/
inductive Handler where
  | acceptCb
  | client (callback : Callback)
deriving DecidableEq, Repr

/-- The reactor, the kernel's side of it, and what is left of a batch of events. -/
structure Server where
  table : Table
  /-- The slots whose `callback` was set to `accept_cb`: it is `none` in the slot. -/
  acceptors : List EventAddr
  opened : Int → Bool
  /-- The events asked for and `data.ptr`. -/
  interest : Int → Option (Int × EventAddr)
  /-- The slot and the bit of each `if` that is still to come. -/
  pending : List (EventAddr × Int)

namespace Server

/-! ### The kernel -/

def epollCtl (server : Server) (op : Op) (fd events : Int) (ptr : EventAddr) (fails : Bool) : Server × Int :=
  let registered := (server.interest fd).isSome
  let asked := { server with interest := Function.update server.interest fd (some (events, ptr)) }
  match op with
  | .add => if registered || !server.opened fd || fails then (server, -1) else (asked, 0)
  | .mod => if !registered || fails then (server, -1) else (asked, 0)
  | .del =>
      if registered then ({ server with interest := Function.update server.interest fd none }, 0)
      else (server, -1)

/-- `close` drops the descriptor from the interest set. -/
def close (server : Server) (fd : Int) : Server :=
  { server with
    opened := Function.update server.opened fd false
    interest := Function.update server.interest fd none }

/-! ### The event registry -/

def write (server : Server) (ptr : EventAddr) (ev : Ntyevent) : Option Server :=
  match server.table.write ptr ev with
  | some table => some { server with table := table }
  | none => none

def ntyEventSet (server : Server) (ptr : EventAddr) (fd : Int) (handler : Handler) : Option Server := do
  let ev ← server.table.read ptr
  match handler with
  | .client callback => server.write ptr { ev with fd := fd, callback := some callback, events := 0 }
  | .acceptCb =>
      let server ← server.write ptr { ev with fd := fd, callback := none, events := 0 }
      return { server with acceptors := ptr :: server.acceptors }

/-- The server and the return value. -/
def ntyEventAdd (server : Server) (ptr : EventAddr) (events : Int) (fails : Bool) : Option (Server × Int) := do
  let ev ← server.table.read ptr
  let ev := { ev with events := events }
  let (ev, op) := if ev.status = 1 then (ev, Op.mod) else ({ ev with status := 1 }, Op.add)
  let server ← server.write ptr ev
  let (server, result) := server.epollCtl op ev.fd events ptr fails
  return (server, if result < 0 then -1 else 0)

def ntyEventDel (server : Server) (ptr : EventAddr) : Option (Server × Int) := do
  let ev ← server.table.read ptr
  if ev.status ≠ 1 then return (server, -1)
  else
    let server ← server.write ptr { ev with status := 0 }
    let (server, _) := server.epollCtl .del ev.fd 0 ptr false
    return (server, 0)

/-! ### Callbacks -/

/-- `ntyreactor_idx(reactor, fd)`. -/
def idx (server : Server) (grants : Nat → Bool) (fuel : Nat) (fd : Int) : Option (Server × EventAddr) :=
  match server.table.ntyreactorIdx grants fuel fd with
  | some (table, ptr) => some ({ server with table := table }, ptr)
  | none => none

section

variable (grants : Nat → Bool) (fuel : Nat)

/-- No bytes stand for a closed connection and for an error. -/
def recvCb (server : Server) (fd : Int) (bytes : List UInt8) (fails : Bool) : Option Server := do
  let (server, ptr) ← server.idx grants fuel fd
  if bytes.length > 0 then
    let ev ← receive (← server.table.read ptr) bytes
    let ev ← httpRequest ev
    let server ← server.write ptr ev
    let (server, _) ← server.ntyEventDel ptr
    let server ← server.ntyEventSet ptr fd (.client .sendCb)
    let (server, _) ← server.ntyEventAdd ptr epollout fails
    return server
  else
    let (server, _) ← server.ntyEventDel ptr
    let ev ← server.table.read ptr
    return server.close ev.fd

/-- `sent` is whether `send` delivers anything. -/
def sendCb (server : Server) (files : FileSystem) (fd : Int) (sent fails : Bool) : Option Server := do
  let (server, ptr) ← server.idx grants fuel fd
  let (ev, _) := httpResponse (← server.table.read ptr) files
  let _ ← sendBytes ev
  let server ← server.write ptr ev
  if sent then
    let (server, _) ← server.ntyEventDel ptr
    let server ← server.ntyEventSet ptr fd (.client .recvCb)
    let (server, _) ← server.ntyEventAdd ptr epollin fails
    return server
  else
    let server := server.close ev.fd
    let (server, _) ← server.ntyEventDel ptr
    return server

/-- `accepted` is what `accept` returns, if it succeeds, and `nonblocking` whether `fcntl`
does; if it does not the new descriptor stays as it is. -/
def acceptCb (server : Server) (accepted : Option Int) (nonblocking fails : Bool) : Option Server :=
  match accepted with
  | none => some server
  | some clientfd =>
      let server := { server with opened := Function.update server.opened clientfd true }
      if nonblocking then do
        let (server, ptr) ← server.idx grants fuel clientfd
        let server ← server.ntyEventSet ptr clientfd (.client .recvCb)
        let (server, _) ← server.ntyEventAdd ptr epollin fails
        return server
      else some server

/-! ### The loop -/

/-- The slot's `callback`. -/
def handler (server : Server) (ptr : EventAddr) : Option Handler :=
  match server.table.read ptr with
  | some ev =>
      match ev.callback with
      | some callback => some (.client callback)
      | none => if ptr ∈ server.acceptors then some .acceptCb else none
  | none => none

end

/-- What `epoll_wait` reports of a descriptor. Errors alone are none of the two. -/
structure Ready where
  fd : Int
  readable : Bool
  writable : Bool
deriving DecidableEq, Repr

/-- What the system calls of a callback answer. -/
inductive Answer where
  | accepted (clientfd : Option Int) (nonblocking fails : Bool)
  | received (bytes : List UInt8) (fails : Bool)
  | sent (delivers fails : Bool)
deriving DecidableEq, Repr

inductive Label where
  | wait (ready : List Ready)
  | turn (answer : Answer)
deriving DecidableEq, Repr

/-- A turn calls a client's callback, or `accept_cb`, or finds that the slot does not ask
for the event any more. -/
inductive Event where
  | called (fd : Int) (call : Call)
  | refused
  | stale (ptr : EventAddr)
deriving DecidableEq, Repr

/-- `events & bit`. -/
def asksFor (events bit : Int) : Bool := events.toNat &&& bit.toNat ≠ 0

/-- The kernel reports only what was asked for. -/
def Reports (server : Server) (ready : Ready) : Prop :=
  match server.interest ready.fd with
  | some (events, _) =>
      (ready.readable = true → asksFor events epollin = true) ∧
        (ready.writable = true → asksFor events epollout = true)
  | none => False

instance (server : Server) (ready : Ready) : Decidable (server.Reports ready) := by
  unfold Reports
  split <;> infer_instance

/-- The two `if`s for an event, as far as the event has the bit. -/
def checks (server : Server) (ready : Ready) : List (EventAddr × Int) :=
  match server.interest ready.fd with
  | some (_, ptr) =>
      (if ready.readable then [(ptr, epollin)] else []) ++ (if ready.writable then [(ptr, epollout)] else [])
  | none => []

/-- The kernel hands out descriptors that are not open. -/
def MayAccept (server : Server) : Option Int → Prop
  | none => True
  | some clientfd => 0 ≤ clientfd ∧ clientfd < 2 ^ 31 ∧ server.opened clientfd = false

instance (server : Server) (accepted : Option Int) : Decidable (server.MayAccept accepted) := by
  cases accepted <;> unfold MayAccept <;> infer_instance

section

variable (grants : Nat → Bool) (fuel : Nat) (files : FileSystem)

/-- `ev->callback(ev->fd, ..)`. -/
def callback (server : Server) (ptr : EventAddr) (ev : Ntyevent) (answer : Answer) :
    Option (Server × List Event) :=
  match server.handler ptr, answer with
  | some .acceptCb, .accepted accepted nonblocking fails =>
      if server.MayAccept accepted then do
        let next ← server.acceptCb grants fuel accepted nonblocking fails
        match accepted with
        | some clientfd => return (next, if nonblocking then [.called clientfd (.accept fails)] else [.refused])
        | none => return (next, [.refused])
      else none
  | some (.client .recvCb), .received bytes fails => do
      let next ← server.recvCb grants fuel ev.fd bytes fails
      return (next, [.called ev.fd (.recv bytes fails)])
  | some (.client .sendCb), .sent delivers fails => do
      let next ← server.sendCb grants fuel files ev.fd delivers fails
      return (next, [.called ev.fd (.send delivers fails)])
  | _, _ => none

/-- One `if` of the loop. -/
def turn (server : Server) (answer : Answer) : Option (Server × List Event) :=
  match server.pending with
  | [] => none
  | (ptr, bit) :: rest =>
      let server := { server with pending := rest }
      match server.table.read ptr with
      | none => none
      | some ev =>
          if asksFor ev.events bit then server.callback grants fuel files ptr ev answer
          else some (server, [.stale ptr])

def step (server : Server) : Label → Option (Server × List Event)
  | .wait ready =>
      if server.pending = [] ∧ (ready.map Ready.fd).Nodup ∧ ready.length ≤ maxEpollEvents ∧
          ∀ one ∈ ready, server.Reports one then
        some ({ server with pending := ready.flatMap server.checks }, [])
      else none
  | .turn answer => server.turn grants fuel files answer

/-- The server and the return value. -/
def ntyreactorAddlistener (server : Server) (sockfd : Int) (fails : Bool) : Option (Server × Int) :=
  if server.table.reactor.evblk = none then some (server, -1)
  else do
    let (server, ptr) ← server.idx grants fuel sockfd
    let server ← server.ntyEventSet ptr sockfd .acceptCb
    let (server, _) ← server.ntyEventAdd ptr epollin fails
    return (server, 0)

/-- What `main` sets up before it runs the loop, with `epfd` and the listening socket open. -/
def create (epfd listenfd : Int) (fails : Bool) : Option Server := do
  let server : Server :=
    { table := (Table.ntyreactorInit grants epfd).1
      acceptors := []
      opened := fun fd => fd = epfd || fd = listenfd
      interest := fun _ => none
      pending := [] }
  let (server, _) ← server.ntyreactorAddlistener grants fuel listenfd fails
  return server

def machine (start : Server) : Machine Server Label Event where
  start := start
  step := step grants fuel files

end

end Server

end SimpleBasicComponents.WebServer
