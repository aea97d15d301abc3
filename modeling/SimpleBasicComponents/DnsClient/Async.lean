import Mathlib.Logic.Function.Basic
import SimpleBasicComponents.DnsClient.Model
import SimpleBasicComponents.Semantics.Machine

/-!
The asynchronous client of `pool/asyn_dns_client.c`.

Owns: the threads that call `dns_async_client_commit`, the thread that runs
`dns_async_client_proc`, and a machine in which each takes one system call or one
allocation at a time, in the order of the source.

The kernel is the descriptors that are open and the interest set of the epoll
instance, which keeps a pointer for each descriptor. What the calls return is an
argument of the step: no descriptor that is open, no memory that is in use, no
event of a descriptor that is not watched. `recvfrom` writes into a buffer of 1024
zeros. An answer on which `dns_parse_response` does not end has no step.
-/

namespace SimpleBasicComponents.DnsClient.Async

open SimpleBasicComponents.Semantics

/-- `ASYNC_CLIENT_NUM`. -/
def asyncClientNum : Nat := 1024

/-- `struct ep_arg`. -/
structure EpArg (Cb : Type*) where
  sockfd : Nat
  cb : Cb
deriving DecidableEq, Repr

/-- Where a thread stands in `dns_async_client_commit`. -/
inductive Committer (Cb : Type*) where
  | idle
  | sent (sockfd : Nat) (cb : Cb)
  | allocated (sockfd eparg : Nat)
deriving DecidableEq, Repr

/-- Where `dns_async_client_proc` stands: `data` is the event being handled, `rest` are the
pointers of those behind it. With none left it is in `epoll_wait`. -/
inductive Proc where
  | handling (rest : List Nat)
  | called (data sockfd : Nat) (list : List DnsItem) (rest : List Nat)
  | deleted (data sockfd : Nat) (list : List DnsItem) (rest : List Nat)
  | closed (data : Nat) (list : List DnsItem) (rest : List Nat)
deriving DecidableEq, Repr

inductive Event (Cb : Type*) where
  | opened (fd : Nat)
  | requested (fd : Nat) (request : List (Option UInt8))
  | requestFault (fd : Nat)
  | allocated (eparg sockfd : Nat) (cb : Cb)
  /-- `calloc` failed: the call returns -1. -/
  | noMemory (fd : Nat)
  | registered (eparg : Nat)
  /-- `epoll_ctl` failed, and so does the call. -/
  | notRegistered (eparg : Nat)
  | callback (eparg : Nat) (cb : Cb) (list : List DnsItem)
  | responseFault (eparg : Nat)
  | closed (eparg fd : Nat)
  | freedDomains (list : List DnsItem)
  | freed (eparg : Nat)
  /-- A `struct ep_arg` is read or freed that is not there. -/
  | dangling (eparg : Nat)
deriving DecidableEq, Repr

structure State (Tid Cb : Type*) where
  heap : Nat → Option (EpArg Cb)
  isOpen : Nat → Bool
  interest : Nat → Option Nat
  committers : Tid → Committer Cb
  proc : Proc
  /-- The code has done something that is not defined. -/
  crashed : Bool

inductive Label (Tid Cb : Type*) where
  /-- `socket`, up to `sendto`; `id` and `allocates` are as for the header and the question. -/
  | socket (tid : Tid) (domain : List UInt8) (cb : Cb) (id : Stored) (allocates : Bool) (fd : Nat)
  | calloc (tid : Tid) (eparg : Option Nat)
  | epollAdd (tid : Tid) (succeeds : Bool)
  | epollWait (ready : List Nat)
  /-- `steps` are enough for `dns_parse_response`; null for a failure of `recvfrom`. -/
  | recvfrom (steps : Nat) (received : Option (List UInt8))
  | epollDel
  | close
  | free
deriving DecidableEq, Repr

section Step

variable {Tid Cb : Type*} [DecidableEq Tid]

namespace State

def goto (state : State Tid Cb) (tid : Tid) (point : Committer Cb) : State Tid Cb :=
  { state with committers := Function.update state.committers tid point }

def crash (state : State Tid Cb) : State Tid Cb := { state with crashed := true }

end State

/-- The request that `sendto` is given. -/
def request (domain : List UInt8) (id : Stored) (allocates : Bool) : Run (List (Option UInt8)) := do
  let (_, question) ← dnsCreateQuestion allocates domain
  let (reqLen, request) ← dnsBuildRequest (dnsCreateHeader id) question (List.replicate 1024 (some 0))
  .ok (request.take reqLen.toNat)

/-- The buffer after `recvfrom`. -/
def bufferOf (received : Option (List UInt8)) : List UInt8 :=
  let bytes := received.getD []
  bytes ++ List.replicate (1024 - bytes.length) 0

def socket (state : State Tid Cb) (tid : Tid) (domain : List UInt8) (cb : Cb) (id : Stored)
    (allocates : Bool) (fd : Nat) : State Tid Cb × List (Event Cb) :=
  let state := { state with isOpen := Function.update state.isOpen fd true }
  match request domain id allocates with
  | .ok request => (state.goto tid (.sent fd cb), [.opened fd, .requested fd request])
  | .error _ => (state.crash, [.opened fd, .requestFault fd])

def calloc (state : State Tid Cb) (tid : Tid) (sockfd : Nat) (cb : Cb) :
    Option Nat → State Tid Cb × List (Event Cb)
  | none => (state.goto tid .idle, [.noMemory sockfd])
  | some eparg =>
      ({ state with heap := Function.update state.heap eparg (some ⟨sockfd, cb⟩) }.goto tid
          (.allocated sockfd eparg),
        [.allocated eparg sockfd cb])

/-- A descriptor that is watched already is not added again. -/
def epollAdd (state : State Tid Cb) (tid : Tid) (sockfd eparg : Nat) (succeeds : Bool) :
    State Tid Cb × List (Event Cb) :=
  if succeeds = true ∧ state.interest sockfd = none then
    ({ state with interest := Function.update state.interest sockfd (some eparg) }.goto tid .idle,
      [.registered eparg])
  else (state.goto tid .idle, [.notRegistered eparg])

/-- `recvfrom`, `dns_parse_response` and the callback. -/
def serve (state : State Tid Cb) (data : Nat) (rest : List Nat) (steps : Nat)
    (received : Option (List UInt8)) : Option (State Tid Cb × List (Event Cb)) :=
  match state.heap data with
  | none => some (state.crash, [.dangling data])
  | some eparg =>
      match dnsParseResponse steps (bufferOf received) with
      | .ok (_, list) =>
          some ({ state with proc := .called data eparg.sockfd list rest },
            [.callback data eparg.cb list])
      | .error .fault => some (state.crash, [.responseFault data])
      | .error .unfinished => none

/-- `dns_async_client_free_domains` and `free(data)`. -/
def freeArg (state : State Tid Cb) (data : Nat) (list : List DnsItem) (rest : List Nat) :
    State Tid Cb × List (Event Cb) :=
  match state.heap data with
  | none => (state.crash, [.freedDomains list, .dangling data])
  | some _ =>
      ({ state with heap := Function.update state.heap data none, proc := .handling rest },
        [.freedDomains list, .freed data])

/-- What `epoll_wait` may report: descriptors that are watched, each once. -/
def State.Reports (state : State Tid Cb) (ready : List Nat) : Prop :=
  ready ≠ [] ∧ ready.length ≤ asyncClientNum ∧ ready.Nodup ∧ ∀ fd ∈ ready, (state.interest fd).isSome

instance (state : State Tid Cb) (ready : List Nat) : Decidable (state.Reports ready) := by
  unfold State.Reports
  infer_instance

def step (state : State Tid Cb) (label : Label Tid Cb) : Option (State Tid Cb × List (Event Cb)) :=
  if state.crashed then none
  else
    match label with
    | .socket tid domain cb id allocates fd =>
        match state.committers tid with
        | .idle =>
            if state.isOpen fd = false then some (socket state tid domain cb id allocates fd) else none
        | _ => none
    | .calloc tid eparg =>
        match state.committers tid with
        | .sent sockfd cb =>
            if ∀ addr ∈ eparg, state.heap addr = none then some (calloc state tid sockfd cb eparg)
            else none
        | _ => none
    | .epollAdd tid succeeds =>
        match state.committers tid with
        | .allocated sockfd eparg => some (epollAdd state tid sockfd eparg succeeds)
        | _ => none
    | .epollWait ready =>
        match state.proc with
        | .handling [] =>
            if state.Reports ready then
              some ({ state with proc := .handling (ready.filterMap state.interest) }, [])
            else none
        | _ => none
    | .recvfrom steps received =>
        match state.proc with
        | .handling (data :: rest) =>
            if ∀ bytes ∈ received, bytes.length ≤ 1024 then serve state data rest steps received else none
        | _ => none
    | .epollDel =>
        match state.proc with
        | .called data sockfd list rest =>
            some ({ state with
              interest := Function.update state.interest sockfd none
              proc := .deleted data sockfd list rest }, [])
        | _ => none
    | .close =>
        match state.proc with
        | .deleted data sockfd list rest =>
            some ({ state with
              isOpen := Function.update state.isOpen sockfd false
              interest := Function.update state.interest sockfd none
              proc := .closed data list rest }, [.closed data sockfd])
        | _ => none
    | .free =>
        match state.proc with
        | .closed data list rest => some (freeArg state data list rest)
        | _ => none

/-- `dns_async_client_init` has returned; `taken` are the descriptors that are open. -/
def machine (taken : Nat → Bool) : Machine (State Tid Cb) (Label Tid Cb) (Event Cb) where
  start := ⟨fun _ => none, taken, fun _ => none, fun _ => .idle, .handling [], false⟩
  step := step

end Step

end SimpleBasicComponents.DnsClient.Async
