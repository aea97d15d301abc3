import Mathlib.Data.List.Nodup
import SimpleBasicComponents.DnsClient.Async
import SimpleBasicComponents.Semantics.History

/-!
Queries of the asynchronous client from commit to callback.

Owns: the life of a `struct ep_arg` as a history shows it, and the proof that in
every interleaving of the threads each one goes through it in order: allocated,
registered, called back once, its socket closed, freed. The thread that handles the
events never follows a pointer to one that is gone, and closes no socket but the
query's own.
-/

namespace SimpleBasicComponents.DnsClient.Async

open SimpleBasicComponents.Semantics

variable {Tid Cb : Type*}

/-! ### Lives -/

inductive Life (Cb : Type*) where
  | gone
  | made (fd : Nat) (cb : Cb)
  | registered (fd : Nat) (cb : Cb)
  | called (fd : Nat) (cb : Cb)
  | closed (fd : Nat) (cb : Cb)

namespace Life

/-- What stands in memory. -/
def arg : Life Cb → Option (EpArg Cb)
  | gone => none
  | made fd cb | registered fd cb | called fd cb | closed fd cb => some ⟨fd, cb⟩

def register : Life Cb → Life Cb
  | made fd cb => registered fd cb
  | life => life

def call : Life Cb → Life Cb
  | registered fd cb => called fd cb
  | life => life

/-- The query's own socket has been closed. -/
def close (socket : Nat) : Life Cb → Life Cb
  | called fd cb => if socket = fd then closed fd cb else called fd cb
  | life => life

end Life

def noteLife (lives : Nat → Life Cb) : Event Cb → Nat → Life Cb
  | .allocated eparg fd cb => Function.update lives eparg (.made fd cb)
  | .registered eparg => Function.update lives eparg (lives eparg).register
  | .callback eparg _ _ => Function.update lives eparg (lives eparg).call
  | .closed eparg fd => Function.update lives eparg ((lives eparg).close fd)
  | .freed eparg => Function.update lives eparg .gone
  | _ => lives

/-- Where the history has left each `struct ep_arg`. -/
def lives (events : List (Event Cb)) : Nat → Life Cb := events.foldl noteLife fun _ => .gone

def noteSocket (sockets : Nat → Bool) : Event Cb → Nat → Bool
  | .opened fd => Function.update sockets fd true
  | .closed _ fd => Function.update sockets fd false
  | _ => sockets

/-- The sockets that the client has open. -/
def sockets (taken : Nat → Bool) (events : List (Event Cb)) : Nat → Bool :=
  events.foldl noteSocket taken

/-- Each event comes where its `struct ep_arg` is in the life before it. -/
def Orderly (taken : Nat → Bool) (earlier : List (Event Cb)) : Event Cb → Prop
  | .opened fd => sockets taken earlier fd = false
  | .allocated eparg _ _ => lives earlier eparg = .gone
  | .registered eparg => ∃ fd cb, lives earlier eparg = .made fd cb
  | .callback eparg cb _ => ∃ fd, lives earlier eparg = .registered fd cb
  | .closed eparg fd => (∃ cb, lives earlier eparg = .called fd cb) ∧ sockets taken earlier fd = true
  | .freed eparg => ∃ fd cb, lives earlier eparg = .closed fd cb
  | .dangling _ => False
  | _ => True

theorem lives_append (events shown : List (Event Cb)) :
    lives (events ++ shown) = shown.foldl noteLife (lives events) := List.foldl_append

theorem sockets_append (taken : Nat → Bool) (events shown : List (Event Cb)) :
    sockets taken (events ++ shown) = shown.foldl noteSocket (sockets taken events) :=
  List.foldl_append

/-! ### What a step can do -/

variable [DecidableEq Tid]

/-- The steps of `step`, one constructor for each way a step can go. -/
inductive Step (state : State Tid Cb) : State Tid Cb → List (Event Cb) → Prop
  | socket {tid : Tid} {cb : Cb} {fd : Nat} {request : List (Option UInt8)}
      (at_ : state.committers tid = .idle) (closed : state.isOpen fd = false) :
      Step state
        ({ state with isOpen := Function.update state.isOpen fd true }.goto tid (.sent fd cb))
        [.opened fd, .requested fd request]
  | requestFault {next : State Tid Cb} {fd : Nat} (closed : state.isOpen fd = false)
      (crashed : next.crashed = true) : Step state next [.opened fd, .requestFault fd]
  | noMemory {tid : Tid} {fd : Nat} {cb : Cb} (at_ : state.committers tid = .sent fd cb) :
      Step state (state.goto tid .idle) [.noMemory fd]
  | allocated {tid : Tid} {fd eparg : Nat} {cb : Cb} (at_ : state.committers tid = .sent fd cb)
      (unused : state.heap eparg = none) :
      Step state
        ({ state with heap := Function.update state.heap eparg (some ⟨fd, cb⟩) }.goto tid
          (.allocated fd eparg))
        [.allocated eparg fd cb]
  | registered {tid : Tid} {fd eparg : Nat} (at_ : state.committers tid = .allocated fd eparg)
      (unwatched : state.interest fd = none) :
      Step state
        ({ state with interest := Function.update state.interest fd (some eparg) }.goto tid .idle)
        [.registered eparg]
  | notRegistered {tid : Tid} {fd eparg : Nat} (at_ : state.committers tid = .allocated fd eparg) :
      Step state (state.goto tid .idle) [.notRegistered eparg]
  | epollWait {ready : List Nat} (at_ : state.proc = .handling []) (reports : state.Reports ready) :
      Step state { state with proc := .handling (ready.filterMap state.interest) } []
  | dangling {data : Nat} {rest : List Nat} (at_ : state.proc = .handling (data :: rest))
      (gone : state.heap data = none) : Step state state.crash [.dangling data]
  | callback {data : Nat} {rest : List Nat} {eparg : EpArg Cb} {list : List DnsItem}
      (at_ : state.proc = .handling (data :: rest)) (found : state.heap data = some eparg) :
      Step state { state with proc := .called data eparg.sockfd list rest }
        [.callback data eparg.cb list]
  | responseFault {data : Nat} : Step state state.crash [.responseFault data]
  | epollDel {data fd : Nat} {list : List DnsItem} {rest : List Nat}
      (at_ : state.proc = .called data fd list rest) :
      Step state
        { state with
          interest := Function.update state.interest fd none
          proc := .deleted data fd list rest } []
  | closed {data fd : Nat} {list : List DnsItem} {rest : List Nat}
      (at_ : state.proc = .deleted data fd list rest) :
      Step state
        { state with
          isOpen := Function.update state.isOpen fd false
          interest := Function.update state.interest fd none
          proc := .closed data list rest }
        [.closed data fd]
  | freed {data : Nat} {list : List DnsItem} {rest : List Nat} {eparg : EpArg Cb}
      (at_ : state.proc = .closed data list rest) (found : state.heap data = some eparg) :
      Step state
        { state with heap := Function.update state.heap data none, proc := .handling rest }
        [.freedDomains list, .freed data]
  | danglingFree {data : Nat} {list : List DnsItem} {rest : List Nat}
      (at_ : state.proc = .closed data list rest) (gone : state.heap data = none) :
      Step state state.crash [.freedDomains list, .dangling data]

section

variable {state next : State Tid Cb} {label : Label Tid Cb} {events shown : List (Event Cb)}

/-- The inversion of `step`. -/
theorem step_cases (taken : step state label = some (next, shown)) : Step state next shown := by
  unfold step at taken
  split at taken
  · contradiction
  · cases label with
    | socket tid domain cb id allocates fd =>
        simp only at taken
        split at taken
        · rename_i at_
          split at taken
          · rename_i closed
            unfold socket at taken
            split at taken
            · obtain ⟨rfl, rfl⟩ := Prod.mk.inj (Option.some.inj taken)
              exact .socket at_ closed
            · obtain ⟨rfl, rfl⟩ := Prod.mk.inj (Option.some.inj taken)
              exact .requestFault closed rfl
          · contradiction
        · contradiction
    | calloc tid eparg =>
        simp only at taken
        split at taken
        · rename_i sockfd cb at_
          split at taken
          · rename_i unused
            cases eparg with
            | none =>
                obtain ⟨rfl, rfl⟩ := Prod.mk.inj (Option.some.inj taken)
                exact .noMemory at_
            | some eparg =>
                obtain ⟨rfl, rfl⟩ := Prod.mk.inj (Option.some.inj taken)
                exact .allocated at_ (unused eparg rfl)
          · contradiction
        · contradiction
    | epollAdd tid succeeds =>
        simp only at taken
        split at taken
        · rename_i sockfd eparg at_
          unfold epollAdd at taken
          split at taken
          · rename_i adds
            obtain ⟨rfl, rfl⟩ := Prod.mk.inj (Option.some.inj taken)
            exact .registered at_ adds.2
          · obtain ⟨rfl, rfl⟩ := Prod.mk.inj (Option.some.inj taken)
            exact .notRegistered at_
        · contradiction
    | epollWait ready =>
        simp only at taken
        split at taken
        · rename_i at_
          split at taken
          · rename_i reports
            obtain ⟨rfl, rfl⟩ := Prod.mk.inj (Option.some.inj taken)
            exact .epollWait at_ reports
          · contradiction
        · contradiction
    | recvfrom steps received =>
        simp only at taken
        split at taken
        · rename_i data rest at_
          split at taken
          · unfold serve at taken
            split at taken
            · rename_i gone
              obtain ⟨rfl, rfl⟩ := Prod.mk.inj (Option.some.inj taken)
              exact .dangling at_ gone
            · rename_i eparg found
              split at taken
              · obtain ⟨rfl, rfl⟩ := Prod.mk.inj (Option.some.inj taken)
                exact .callback at_ found
              · obtain ⟨rfl, rfl⟩ := Prod.mk.inj (Option.some.inj taken)
                exact .responseFault
              · contradiction
          · contradiction
        · contradiction
    | epollDel =>
        simp only at taken
        split at taken
        · rename_i at_
          obtain ⟨rfl, rfl⟩ := Prod.mk.inj (Option.some.inj taken)
          exact .epollDel at_
        · contradiction
    | close =>
        simp only at taken
        split at taken
        · rename_i at_
          obtain ⟨rfl, rfl⟩ := Prod.mk.inj (Option.some.inj taken)
          exact .closed at_
        · contradiction
    | free =>
        simp only at taken
        split at taken
        · rename_i at_
          unfold freeArg at taken
          split at taken
          · rename_i gone
            obtain ⟨rfl, rfl⟩ := Prod.mk.inj (Option.some.inj taken)
            exact .danglingFree at_ gone
          · rename_i found
            obtain ⟨rfl, rfl⟩ := Prod.mk.inj (Option.some.inj taken)
            exact .freed at_ found
        · contradiction

end

/-! ### The invariant -/

/-- The socket that a thread is about to register. -/
def Committer.socket : Committer Cb → Option Nat
  | .idle => none
  | .sent sockfd _ | .allocated sockfd _ => some sockfd

namespace Proc

/-- The pointers of the events that are still to be handled. -/
def rest : Proc → List Nat
  | handling rest | called _ _ _ rest | deleted _ _ _ rest | closed _ _ rest => rest

/-- The pointer of the event that is being handled, while its socket is open. -/
def data : Proc → Option Nat
  | handling _ | closed _ _ _ => none
  | called data _ _ _ | deleted data _ _ _ => some data

/-- The pointer of the event whose socket has been closed. -/
def ended : Proc → Option Nat
  | closed data _ _ => some data
  | _ => none

/-- The socket that is still open and not watched any more. -/
def socket : Proc → Option Nat
  | deleted _ sockfd _ _ => some sockfd
  | _ => none

end Proc

/-- Every `struct ep_arg` and every socket is where its life says. -/
structure Kept (state : State Tid Cb) (lives : Nat → Life Cb) : Prop where
  heap : ∀ addr, state.heap addr = (lives addr).arg
  /-- What is watched is waiting for its answer, or has been called back just now. -/
  interest : ∀ fd addr, state.interest fd = some addr → state.isOpen fd = true ∧
    ∃ cb, lives addr = .registered fd cb ∨
      lives addr = .called fd cb ∧ ∃ list rest, state.proc = .called addr fd list rest
  watched : ∀ addr fd cb, lives addr = .registered fd cb → state.interest fd = some addr
  held : ∀ tid fd, (state.committers tid).socket = some fd →
    state.isOpen fd = true ∧ state.interest fd = none ∧ state.proc.socket ≠ some fd
  apart : ∀ tid other fd, (state.committers tid).socket = some fd →
    (state.committers other).socket = some fd → tid = other
  made : ∀ tid fd addr, state.committers tid = .allocated fd addr → ∃ cb, lives addr = .made fd cb
  rest : ∀ addr ∈ state.proc.rest, ∃ fd cb, lives addr = .registered fd cb
  distinct : state.proc.rest.Nodup
  called : ∀ addr fd cb, lives addr = .called fd cb → state.proc.data = some addr
  current : ∀ addr, state.proc.data = some addr → ∃ fd cb, lives addr = .called fd cb
  watching : ∀ addr fd list rest, state.proc = .called addr fd list rest →
    state.interest fd = some addr
  deleted : ∀ addr fd list rest, state.proc = .deleted addr fd list rest →
    state.isOpen fd = true ∧ state.interest fd = none ∧ ∃ cb, lives addr = .called fd cb
  answered : ∀ addr fd cb, lives addr = .closed fd cb → state.proc.ended = some addr
  ended : ∀ addr, state.proc.ended = some addr → ∃ fd cb, lives addr = .closed fd cb

section

variable {state next : State Tid Cb} {lives : Nat → Life Cb} {tid : Tid} {fd eparg : Nat} {cb : Cb}

omit [DecidableEq Tid] in
/-- A socket that is closed is nowhere. -/
theorem Kept.closed_apart (kept : Kept state lives) (closed : state.isOpen fd = false) :
    state.interest fd = none ∧ state.proc.socket ≠ some fd := by
  constructor
  · cases watched : state.interest fd with
    | none => rfl
    | some addr =>
        have isOpen := (kept.interest fd addr watched).1
        rw [closed] at isOpen
        contradiction
  · intro same
    cases at_ : state.proc with
    | deleted data sockfd list rest =>
        rw [at_] at same
        obtain rfl := Option.some.inj same
        have isOpen := (kept.deleted data sockfd list rest at_).1
        rw [closed] at isOpen
        contradiction
    | handling | called | closed =>
        rw [at_] at same
        contradiction

theorem Kept.opened (kept : Kept state lives) (closed : state.isOpen fd = false) :
    Kept ({ state with isOpen := Function.update state.isOpen fd true }.goto tid (.sent fd cb))
      lives := by
  have ⟨unwatched, notDeleted⟩ := kept.closed_apart closed
  have ⟨heap, interest, watched, held, apart, made, rest, distinct, called, current, watching, deleted,
    answered, ended⟩ := kept
  constructor <;> simp only [State.goto, Function.update_apply]
  case held => grind [Committer.socket]
  case apart => grind [Committer.socket]
  all_goals grind

/-- The call ends without a query. -/
theorem Kept.dropped (kept : Kept state lives) : Kept (state.goto tid .idle) lives := by
  have ⟨heap, interest, watched, held, apart, made, rest, distinct, called, current, watching, deleted,
    answered, ended⟩ := kept
  constructor <;> simp only [State.goto, Function.update_apply]
  case held => grind [Committer.socket]
  case apart => grind [Committer.socket]
  all_goals grind

theorem Kept.allocated (kept : Kept state lives) (at_ : state.committers tid = .sent fd cb)
    (unused : state.heap eparg = none) :
    Kept
      ({ state with heap := Function.update state.heap eparg (some ⟨fd, cb⟩) }.goto tid
        (.allocated fd eparg))
      (Function.update lives eparg (.made fd cb)) := by
  have gone : lives eparg = .gone := by
    have entry := kept.heap eparg
    rw [unused] at entry
    cases life : lives eparg with
    | gone => rfl
    | made | registered | called | closed =>
        rw [life] at entry
        contradiction
  have ⟨heap, interest, watched, held, apart, made, rest, distinct, called, current, watching, deleted,
    answered, ended⟩ := kept
  constructor <;> simp only [State.goto, Function.update_apply]
  case heap => grind [Life.arg]
  case held => grind [Committer.socket]
  case apart => grind [Committer.socket]
  case made =>
    intro other socket addr isPoint
    by_cases same : other = tid
    · rw [if_pos same] at isPoint
      obtain ⟨rfl, rfl⟩ := Committer.allocated.inj isPoint
      exact ⟨cb, if_pos rfl⟩
    · rw [if_neg same] at isPoint
      have ⟨otherCb, life⟩ := made other socket addr isPoint
      have apartAddr : addr ≠ eparg := by
        intro sameAddr
        rw [sameAddr, gone] at life
        contradiction
      exact ⟨otherCb, (if_neg apartAddr).trans life⟩
  all_goals grind

theorem Kept.registered (kept : Kept state lives) (at_ : state.committers tid = .allocated fd eparg) :
    Kept
      ({ state with interest := Function.update state.interest fd (some eparg) }.goto tid .idle)
      (Function.update lives eparg (lives eparg).register) := by
  have socket : (state.committers tid).socket = some fd := by rw [at_]; rfl
  have ⟨isOpen, unwatched, notDeleted⟩ := kept.held tid fd socket
  have ⟨cb, life⟩ := kept.made tid fd eparg at_
  have ⟨heap, interest, watched, held, apart, made, rest, distinct, called, current, watching, deleted,
    answered, ended⟩ := kept
  rw [life]
  constructor <;> simp only [State.goto, Function.update_apply, Life.register]
  case heap => grind [Life.arg]
  case held => grind [Committer.socket]
  case apart => grind [Committer.socket]
  case made => grind [Committer.socket]
  case interest =>
    intro socket addr isWatched
    by_cases same : socket = fd
    · rw [if_pos same] at isWatched
      obtain rfl := Option.some.inj isWatched
      exact ⟨same ▸ isOpen, cb, .inl (by rw [if_pos rfl, same])⟩
    · rw [if_neg same] at isWatched
      have ⟨open_, otherCb, waits⟩ := interest socket addr isWatched
      have apartAddr : addr ≠ eparg := by
        intro sameAddr
        rw [sameAddr, life] at waits
        grind
      exact ⟨open_, otherCb, by rw [if_neg apartAddr]; exact waits⟩
  case deleted =>
    intro addr socket list rest isDeleted
    have ⟨open_, unwatchedNow, otherCb, otherLife⟩ := deleted addr socket list rest isDeleted
    have apartAddr : addr ≠ eparg := by
      intro sameAddr
      rw [sameAddr, life] at otherLife
      contradiction
    have apartSocket : socket ≠ fd := by
      intro sameSocket
      apply notDeleted
      rw [isDeleted, sameSocket]
      rfl
    rw [if_neg apartSocket]
    exact ⟨open_, unwatchedNow, otherCb, by rw [if_neg apartAddr]; exact otherLife⟩
  all_goals grind

omit [DecidableEq Tid] in
/-- The pointers of descriptors that are watched, each once. -/
theorem Kept.reported (kept : Kept state lives) {ready : List Nat} (at_ : state.proc = .handling [])
    (reports : state.Reports ready) :
    Kept { state with proc := .handling (ready.filterMap state.interest) } lives := by
  have ⟨heap, interest, watched, held, apart, made, rest, distinct, called, current, watching, deleted,
    answered, ended⟩ := kept
  constructor
  case rest =>
    intro addr member
    have ⟨fd, _, isWatched⟩ := List.mem_filterMap.mp member
    have ⟨_, cb, life⟩ := interest fd addr isWatched
    grind
  case distinct =>
    apply List.Nodup.filterMap ?_ reports.2.2.1
    intro fd other addr here there
    have ⟨_, cb, life⟩ := interest fd addr here
    have ⟨_, otherCb, otherLife⟩ := interest other addr there
    grind
  all_goals grind [Proc.data, Proc.ended, Proc.socket]

omit [DecidableEq Tid] in
theorem Kept.callback (kept : Kept state lives) {data : Nat} {rest : List Nat} {arg : EpArg Cb}
    {list : List DnsItem} (at_ : state.proc = .handling (data :: rest))
    (found : state.heap data = some arg) :
    Kept { state with proc := .called data arg.sockfd list rest }
      (Function.update lives data (lives data).call) := by
  have ⟨fd, cb, life⟩ := kept.rest data (by rw [at_]; exact List.mem_cons_self)
  have isArg : arg = ⟨fd, cb⟩ := by
    have entry := kept.heap data
    rw [found, life] at entry
    exact Option.some.inj entry
  have ⟨heap, interest, watched, held, apart, made, rest, distinct, called, current, watching, deleted,
    answered, ended⟩ := kept
  rw [life, isArg]
  constructor <;> simp only [Function.update_apply, Life.call]
  case heap => grind [Life.arg]
  case interest =>
    intro socket addr isWatched
    have ⟨open_, otherCb, waits⟩ := interest socket addr isWatched
    by_cases same : addr = data
    · rw [same, life] at waits
      have isFd : fd = socket ∧ cb = otherCb := by grind
      refine ⟨open_, cb, .inr ⟨by rw [if_pos same, isFd.1], list, _, by rw [same, isFd.1]⟩⟩
    · refine ⟨open_, otherCb, .inl ?_⟩
      rw [if_neg same]
      grind
  case current =>
    intro addr isData
    have same : data = addr := Option.some.inj isData
    exact ⟨fd, cb, if_pos same.symm⟩
  case rest => grind [Proc.rest]
  case distinct => grind [Proc.rest]
  all_goals grind [Proc.data, Proc.ended, Proc.socket, Proc.rest]

omit [DecidableEq Tid] in
/-- The answered query is not watched any more. -/
theorem Kept.unwatched (kept : Kept state lives) {data : Nat} {list : List DnsItem} {rest : List Nat}
    (at_ : state.proc = .called data fd list rest) :
    Kept
      { state with
        interest := Function.update state.interest fd none
        proc := .deleted data fd list rest } lives := by
  have isWatched := kept.watching data fd list rest at_
  have ⟨heap, interest, watched, held, apart, made, rest, distinct, called, current, watching, deleted,
    answered, ended⟩ := kept
  constructor <;> simp only [Function.update_apply]
  all_goals grind [Proc.data, Proc.ended, Proc.socket, Proc.rest]

omit [DecidableEq Tid] in
theorem Kept.closed (kept : Kept state lives) {data : Nat} {list : List DnsItem} {rest : List Nat}
    (at_ : state.proc = .deleted data fd list rest) :
    Kept
      { state with
        isOpen := Function.update state.isOpen fd false
        interest := Function.update state.interest fd none
        proc := .closed data list rest }
      (Function.update lives data ((lives data).close fd)) := by
  have ⟨isOpen, isUnwatched, cb, life⟩ := kept.deleted data fd list rest at_
  have closes : (lives data).close fd = .closed fd cb := by rw [life, Life.close, if_pos rfl]
  have ⟨heap, interest, watched, held, apart, made, rest, distinct, called, current, watching, deleted,
    answered, ended⟩ := kept
  rw [closes]
  constructor <;> simp only [Function.update_apply]
  all_goals grind [Proc.data, Proc.ended, Proc.socket, Proc.rest, Life.arg]

omit [DecidableEq Tid] in
theorem Kept.freed (kept : Kept state lives) {data : Nat} {list : List DnsItem} {rest : List Nat}
    (at_ : state.proc = .closed data list rest) :
    Kept { state with heap := Function.update state.heap data none, proc := .handling rest }
      (Function.update lives data .gone) := by
  have ⟨fd, cb, life⟩ := kept.ended data (by rw [at_]; rfl)
  have ⟨heap, interest, watched, held, apart, made, rest, distinct, called, current, watching, deleted,
    answered, ended⟩ := kept
  constructor <;> simp only [Function.update_apply]
  all_goals grind [Proc.data, Proc.ended, Proc.socket, Proc.rest, Life.arg]

end

/-! ### Runs -/

section

variable {taken : Nat → Bool} {state next : State Tid Cb} {labels : List (Label Tid Cb)}
  {label : Label Tid Cb} {events shown : List (Event Cb)}

theorem step_kept (kept : Kept state (lives events)) (sameSockets : state.isOpen = sockets taken events)
    (taken' : step state label = some (next, shown)) :
    Historically (fun earlier event => Orderly taken (events ++ earlier) event) shown ∧
      (next.crashed = false →
        Kept next (lives (events ++ shown)) ∧ next.isOpen = sockets taken (events ++ shown)) := by
  rw [lives_append, sockets_append, ← sameSockets]
  -- All that is shown is one event, but for the two steps that show something before it.
  have one {event : Event Cb} (orderly : Orderly taken events event) :
      Historically (fun earlier event => Orderly taken (events ++ earlier) event) [event] :=
    historically_singleton_iff.mpr (by rwa [List.append_nil])
  cases step_cases taken' with
  | @socket _ _ fd request idle closed =>
      refine ⟨?_, fun _ => ⟨kept.opened closed, rfl⟩⟩
      have free : Orderly taken events (.opened fd) := by rwa [sameSockets] at closed
      exact (@historically_snoc_iff _ _ [Event.opened fd] (.requested fd request)).mpr ⟨one free, trivial⟩
  | @requestFault _ fd closed crashed =>
      refine ⟨?_, fun running => absurd (crashed.symm.trans running) (by simp)⟩
      have free : Orderly taken events (.opened fd) := by rwa [sameSockets] at closed
      exact (@historically_snoc_iff _ _ [Event.opened fd] (.requestFault fd)).mpr ⟨one free, trivial⟩
  | noMemory at_ | notRegistered at_ => exact ⟨one trivial, fun _ => ⟨kept.dropped, rfl⟩⟩
  | @allocated _ _ eparg _ at_ unused =>
      refine ⟨one ?_, fun _ => ⟨kept.allocated at_ unused, rfl⟩⟩
      have entry := kept.heap eparg
      rw [unused] at entry
      show lives events eparg = .gone
      cases life : lives events eparg with
      | gone => rfl
      | made | registered | called | closed =>
          rw [life] at entry
          contradiction
  | registered at_ unwatched =>
      have ⟨cb, life⟩ := kept.made _ _ _ at_
      exact ⟨one ⟨_, cb, life⟩, fun _ => ⟨kept.registered at_, rfl⟩⟩
  | epollWait at_ reports => exact ⟨historically_nil, fun _ => ⟨kept.reported at_ reports, rfl⟩⟩
  | @dangling data rest at_ gone =>
      have ⟨fd, cb, life⟩ := kept.rest data (by rw [at_]; exact List.mem_cons_self)
      have entry := kept.heap data
      rw [gone, life] at entry
      contradiction
  | @callback data rest eparg list at_ found =>
      refine ⟨one ?_, fun _ => ⟨kept.callback at_ found, rfl⟩⟩
      have ⟨fd, cb, life⟩ := kept.rest data (by rw [at_]; exact List.mem_cons_self)
      have entry := kept.heap data
      rw [found, life] at entry
      obtain rfl := Option.some.inj entry
      exact ⟨fd, life⟩
  | responseFault => exact ⟨one trivial, fun running => absurd running (by simp [State.crash])⟩
  | epollDel at_ => exact ⟨historically_nil, fun _ => ⟨kept.unwatched at_, rfl⟩⟩
  | closed at_ =>
      have ⟨isOpen, _, cb, life⟩ := kept.deleted _ _ _ _ at_
      rw [sameSockets] at isOpen
      exact ⟨one ⟨⟨cb, life⟩, isOpen⟩, fun _ => ⟨kept.closed at_, rfl⟩⟩
  | @freed data list rest eparg at_ found =>
      refine ⟨?_, fun _ => ⟨kept.freed at_, rfl⟩⟩
      have life := kept.ended data (by rw [at_]; rfl)
      have closed : Orderly taken (events ++ [.freedDomains list]) (.freed data) := by
        show ∃ fd cb, lives (events ++ [.freedDomains list]) data = .closed fd cb
        rw [lives_append]
        exact life
      exact (@historically_snoc_iff _ _ [Event.freedDomains list] (.freed data)).mpr
        ⟨one trivial, closed⟩
  | @danglingFree data list rest at_ gone =>
      have ⟨fd, cb, life⟩ := kept.ended data (by rw [at_]; rfl)
      have entry := kept.heap data
      rw [gone, life] at entry
      contradiction

theorem kept_start :
    Kept (machine taken : Machine (State Tid Cb) (Label Tid Cb) (Event Cb)).start fun _ => .gone where
  heap _ := rfl
  interest fd addr isWatched := by contradiction
  watched addr fd cb life := by contradiction
  held tid fd isSocket := by contradiction
  apart tid other fd isSocket := by contradiction
  made tid fd addr isPoint := by contradiction
  rest addr member := by contradiction
  distinct := List.nodup_nil
  called addr fd cb life := by contradiction
  current addr isData := by contradiction
  watching addr fd list rest isCalled := by contradiction
  deleted addr fd list rest isDeleted := by contradiction
  answered addr fd cb life := by contradiction
  ended addr isEnded := by contradiction

theorem exec_kept (ran : (machine taken).Exec labels state events) :
    Historically (Orderly taken) events ∧
      (state.crashed = false → Kept state (lives events) ∧ state.isOpen = sockets taken events) := by
  induction ran with
  | start => exact ⟨historically_nil, fun _ => ⟨kept_start, rfl⟩⟩
  | @step labels state next events shown label before taken' inductionHypothesis =>
      have running : state.crashed = false := by
        by_contra stopped
        rw [Bool.not_eq_false] at stopped
        have refused : step state label = none := if_pos stopped
        exact absurd (refused.symm.trans taken') (by simp)
      have ⟨kept, sameSockets⟩ := inductionHypothesis.2 running
      have ⟨orderly, later⟩ := step_kept kept sameSockets taken'
      exact ⟨historically_append_iff.mpr ⟨inductionHypothesis.1, orderly⟩, later⟩

end

/-- Thread 0 asks for "a" while thread 1 asks for "b"; the second query is not answered. -/
def oneAnswer : List (Label (Fin 2) Nat) :=
  [.socket 0 [97] 7 ⟨0, 1⟩ true 5, .socket 1 [98] 8 ⟨0, 2⟩ true 6, .calloc 0 (some 100),
    .epollAdd 0 true, .epollWait [5], .calloc 1 (some 101), .recvfrom 1 none, .epollAdd 1 true,
    .epollDel, .close, .free]

end SimpleBasicComponents.DnsClient.Async
