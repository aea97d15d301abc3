import Mathlib.Logic.Function.Basic
import SimpleBasicComponents.Semantics.Machine

/-!
The single reactor of `src/reactor_single.c`.

Owns: `nty_event_set`, `nty_event_add`, `nty_event_del`, the callbacks, one sweep
of `ntyreactor_run` over the idle slots, and a machine whose labels are the calls
of `ntyreactor_addlistener`, the callbacks that the loop makes and the sweeps,
each with the clock it reads. The table of slots is zeroed at the start.

What the kernel answers is an argument. Its descriptors are those of the process;
which ones are in the interest set of the epoll instance is left out, since no
caller looks at what `nty_event_add` returns, and so is what is received and sent.
-/

namespace SimpleBasicComponents.Reactor

open SimpleBasicComponents.Semantics

def maxEpollEvents : Nat := 1024

def epollin : Int := 1
def epollout : Int := 4

inductive Callback where
  | acceptCb
  | recvCb
  | sendCb
deriving DecidableEq, Repr

structure Ntyevent where
  fd : Nat := 0
  events : Int := 0
  callback : Option Callback := none
  status : Int := 0
  lastActive : Int := 0
deriving DecidableEq, Repr

structure Ntyreactor where
  events : Nat → Ntyevent
  checkpos : Nat
  /-- The descriptors that the process has open. -/
  isOpen : Nat → Bool
  /-- The code has reached a slot that is not there. -/
  crashed : Bool

inductive Event where
  | listening (fd : Nat)
  /-- The status is that of the slot before. -/
  | accepted (fd : Nat) (time : Int) (status : Int)
  | refused (fd : Nat)
  | received (fd : Nat) (time : Int)
  | sent (fd : Nat) (time : Int)
  | closed (fd : Nat)
  | swept (fd : Nat) (time : Int)
  | outside (index : Nat)
deriving DecidableEq, Repr

/-! ### Slots -/

/-- `time` is what `time(NULL)` returns. -/
def ntyEventSet (ev : Ntyevent) (fd : Nat) (callback : Callback) (time : Int) : Ntyevent :=
  { ev with fd := fd, callback := some callback, events := 0, lastActive := time }

/-- `status` becomes 1 before an ADD, and is 1 before a MOD. -/
def ntyEventAdd (ev : Ntyevent) (events : Int) : Ntyevent := { ev with events := events, status := 1 }

def ntyEventDel (ev : Ntyevent) : Ntyevent := if ev.status ≠ 1 then ev else { ev with status := 0 }

namespace Ntyreactor

def setSlot (reactor : Ntyreactor) (index : Nat) (ev : Ntyevent) : Ntyreactor :=
  { reactor with events := Function.update reactor.events index ev }

def openFd (reactor : Ntyreactor) (fd : Nat) : Ntyreactor :=
  { reactor with isOpen := Function.update reactor.isOpen fd true }

def close (reactor : Ntyreactor) (fd : Nat) : Ntyreactor :=
  { reactor with isOpen := Function.update reactor.isOpen fd false }

end Ntyreactor

/-! ### Callbacks -/

/-- `sockfd` is a socket that `init_sock` has made. -/
def addListener (reactor : Ntyreactor) (sockfd : Nat) (time : Int) : Ntyreactor × List Event :=
  let ev := ntyEventAdd (ntyEventSet (reactor.events sockfd) sockfd .acceptCb time) epollin
  ((reactor.openFd sockfd).setSlot sockfd ev, [.listening sockfd])

/-- The first slot from the third on that is not in use. -/
def freeSlot (reactor : Ntyreactor) : Option Nat :=
  (List.range' 3 (maxEpollEvents - 3)).find? fun i => (reactor.events i).status = 0

/-- `accept_cb` once `accept` has returned `clientfd`. `nonblocking` is whether
`fcntl` succeeds. -/
def acceptCb (reactor : Ntyreactor) (clientfd : Nat) (nonblocking : Bool) (time : Int) :
    Ntyreactor × List Event :=
  let reactor := reactor.openFd clientfd
  match freeSlot reactor with
  | none =>
      -- The last `printf` reads the slot behind the last one.
      ({ reactor with crashed := true }, [.refused clientfd, .outside maxEpollEvents])
  | some _ =>
      if nonblocking then
        if clientfd < maxEpollEvents then
          let ev := reactor.events clientfd
          (reactor.setSlot clientfd (ntyEventAdd (ntyEventSet ev clientfd .recvCb time) epollin),
            [.accepted clientfd time ev.status])
        else ({ reactor with crashed := true }, [.outside clientfd])
      else (reactor, [.refused clientfd])

/-- `received` is whether `recv` delivers anything. -/
def recvCb (reactor : Ntyreactor) (fd : Nat) (received : Bool) (time : Int) : Ntyreactor × List Event :=
  let ev := ntyEventDel (reactor.events fd)
  if received then
    (reactor.setSlot fd (ntyEventAdd (ntyEventSet ev fd .sendCb time) epollout), [.received fd time])
  else ((reactor.setSlot fd ev).close ev.fd, [.closed ev.fd])

/-- `sent` is whether `send` delivers anything. -/
def sendCb (reactor : Ntyreactor) (fd : Nat) (sent : Bool) (time : Int) : Ntyreactor × List Event :=
  let ev := ntyEventDel (reactor.events fd)
  if sent then
    (reactor.setSlot fd (ntyEventAdd (ntyEventSet ev fd .recvCb time) epollin), [.sent fd time])
  else ((reactor.setSlot fd ev).close ev.fd, [.closed ev.fd])

/-! ### The sweep -/

/-- One turn of the loop over the slots. -/
def checkSlot (reactor : Ntyreactor) (now : Int) : Ntyreactor × List Event :=
  let checkpos := if reactor.checkpos = maxEpollEvents then 0 else reactor.checkpos
  let ev := reactor.events checkpos
  let reactor := { reactor with checkpos := checkpos + 1 }
  if ev.status ≠ 1 then (reactor, [])
  else if now - ev.lastActive ≥ 60 then
    ((reactor.close ev.fd).setSlot checkpos (ntyEventDel ev), [.swept ev.fd now])
  else (reactor, [])

def checkSlots (now : Int) : Nat → Ntyreactor → Ntyreactor × List Event
  | 0, reactor => (reactor, [])
  | left + 1, reactor =>
      let (reactor, shown) := checkSlot reactor now
      let (reactor, later) := checkSlots now left reactor
      (reactor, shown ++ later)

/-! ### Runs -/

inductive Call where
  | addListener (sockfd : Nat) (time : Int)
  /-- A null descriptor is a failure of `accept`. -/
  | accept (slot : Nat) (clientfd : Option Nat) (nonblocking : Bool) (time : Int)
  | recv (slot : Nat) (received : Bool) (time : Int)
  | send (slot : Nat) (sent : Bool) (time : Int)
  | sweep (now : Int)
deriving DecidableEq, Repr

/-- The loop calls what the slot waits for. -/
def Ntyreactor.Awaits (reactor : Ntyreactor) (slot : Nat) (callback : Callback) (events : Int) : Prop :=
  slot < maxEpollEvents ∧ (reactor.events slot).status = 1 ∧
    (reactor.events slot).callback = some callback ∧ (reactor.events slot).events = events

instance (reactor : Ntyreactor) (slot : Nat) (callback : Callback) (events : Int) :
    Decidable (reactor.Awaits slot callback events) := by
  unfold Ntyreactor.Awaits
  infer_instance

/-- The kernel gives out no descriptor that is open. -/
def step (reactor : Ntyreactor) (call : Call) : Option (Ntyreactor × List Event) :=
  if reactor.crashed then none
  else
    match call with
    | .addListener sockfd time =>
        if reactor.isOpen sockfd = false ∧ sockfd < maxEpollEvents then some (addListener reactor sockfd time)
        else none
    | .accept slot none _ _ => if reactor.Awaits slot .acceptCb epollin then some (reactor, []) else none
    | .accept slot (some clientfd) nonblocking time =>
        if reactor.Awaits slot .acceptCb epollin ∧ reactor.isOpen clientfd = false then
          some (acceptCb reactor clientfd nonblocking time)
        else none
    | .recv slot received time =>
        if reactor.Awaits slot .recvCb epollin then
          some (recvCb reactor (reactor.events slot).fd received time)
        else none
    | .send slot sent time =>
        if reactor.Awaits slot .sendCb epollout then
          some (sendCb reactor (reactor.events slot).fd sent time)
        else none
    | .sweep now => some (checkSlots now 100 reactor)

/-- `taken` are the descriptors that are open from the start. -/
def machine (taken : Nat → Bool) : Machine Ntyreactor Call Event where
  start := ⟨fun _ => {}, 0, taken, false⟩
  step := step

end SimpleBasicComponents.Reactor
