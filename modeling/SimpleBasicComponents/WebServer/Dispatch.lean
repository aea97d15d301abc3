import SimpleBasicComponents.WebServer.Growth
import SimpleBasicComponents.WebServer.Server

/-!
What the callbacks of the whole server change.

Owns: what each call on the event registry, a lookup in the descriptor table and each
callback do to the server: they do to the slot of their descriptor what the model of a
single connection does, fault where it does, and leave all other descriptors as they
were.
-/

namespace SimpleBasicComponents.WebServer

open SimpleBasicComponents.Semantics

namespace Server

open Table (Lined Extends homeOf)

variable {grants : Nat → Bool} {fuel : Nat} {files : FileSystem} {server next : Server} {table grown final : Table}
  {fd other listenfd events : Int} {ev new : Ntyevent} {callback : Callback} {fails : Bool}

/-! ### The table -/

/-- The slot of a descriptor. One that is not there yet will be zeroed. -/
def slotIn (table : Table) (fd : Int) : Ntyevent := (table.read (homeOf fd)).getD {}

def slotAt (server : Server) (fd : Int) : Ntyevent := slotIn server.table fd

/-- The slots of the other descriptors are as they were. -/
structure Kept (fd : Int) (table next : Table) : Prop where
  others : ∀ other, 0 ≤ other → other ≠ fd → slotIn next other = slotIn table other
  there : ∀ ptr, (table.read ptr).isSome → (next.read ptr).isSome
  lined : ∀ count, Lined table count → Lined next count

theorem Kept.trans (first : Kept fd table grown) (second : Kept fd grown final) : Kept fd table final where
  others other notNegative different :=
    (second.others other notNegative different).trans (first.others other notNegative different)
  there ptr isThere := second.there ptr (first.there ptr isThere)
  lined count isLined := second.lined count (first.lined count isLined)

theorem homeOf_ne (notNegative : 0 ≤ fd) (notNegativeOther : 0 ≤ other) (different : other ≠ fd) :
    homeOf other ≠ homeOf fd := by
  intro same
  have block : (other / 1024).toNat = (fd / 1024).toNat := congrArg Prod.fst same
  have offset : other % 1024 = fd % 1024 := congrArg Prod.snd same
  omega

theorem slotIn_eq (found : table.read (homeOf fd) = some ev) : slotIn table fd = ev := by
  rw [slotIn, found]
  rfl

/-- What is written to a slot is read there, and nowhere else. -/
theorem write_read {ptr : EventAddr} (found : table.read ptr = some ev) (new : Ntyevent) :
    ∃ next, table.write ptr new = some next ∧ next.read ptr = some new ∧
      ∀ other, other ≠ ptr → next.read other = table.read other := by
  have ⟨array, offset⟩ := ptr
  unfold Table.read at found
  simp only at found
  cases isArray : table.arrays.load array with
  | none =>
      rw [isArray] at found
      cases found
  | some held =>
      rw [isArray] at found
      simp only at found
      have notNegative : 0 ≤ offset := by
        by_contra negative
        rw [if_neg negative] at found
        cases found
      rw [if_pos notNegative] at found
      have below := (List.getElem?_eq_some_iff.mp found).1
      have inside : offset < held.length := by omega
      have ⟨arrays, stores, _, here, elsewhere⟩ := Heap.store_eq_some isArray (held.set offset.toNat new)
      refine ⟨{ table with arrays := arrays }, ?_, ?_, ?_⟩
      · simp only [Table.write, isArray, if_pos (And.intro notNegative inside), stores]
      · simp only [Table.read, here, if_pos notNegative]
        exact List.getElem?_set_self below
      · intro other different
        unfold Table.read
        by_cases sameArray : other.1 = array
        · simp only [sameArray, here, isArray]
          by_cases isOffset : 0 ≤ other.2
          · have otherOffset : offset.toNat ≠ other.2.toNat := by
              intro same
              exact different (Prod.ext sameArray (by omega))
            simp only [if_pos isOffset]
            exact List.getElem?_set_ne otherOffset
          · simp only [if_neg isOffset]
        · simp only [elsewhere other.1 sameArray]

theorem write_spec (notNegative : 0 ≤ fd) (found : table.read (homeOf fd) = some ev) (new : Ntyevent) :
    ∃ next, table.write (homeOf fd) new = some next ∧ next.read (homeOf fd) = some new ∧
      Kept fd table next := by
  have ⟨next, writes, reads, elsewhere⟩ := write_read found new
  refine ⟨next, writes, reads, ?_, ?_, fun count isLined => isLined.write writes⟩
  · intro other notNegativeOther different
    rw [slotIn, slotIn, elsewhere _ (homeOf_ne notNegative notNegativeOther different)]
  · intro ptr isThere
    by_cases same : ptr = homeOf fd
    · rw [same, reads]
      rfl
    · rw [elsewhere ptr same]
      exact isThere

theorem slotIn_of_extends (extended : Extends table grown) (fd : Int) : slotIn grown fd = slotIn table fd := by
  unfold slotIn
  cases found : table.read (homeOf fd) with
  | some ev => rw [extended.kept _ _ found]
  | none =>
      cases now : grown.read (homeOf fd) with
      | none => rfl
      | some ev =>
          cases extended.zeroed _ _ now with
          | inl before =>
              rw [found] at before
              cases before
          | inr fresh => rw [fresh.2]; rfl

/-- The table has its shape, and a size an `int` can count. -/
def Sized (table : Table) : Prop := ∃ count, Lined table count ∧ count ≤ 2 ^ 21

/-- `ntyreactor_idx` finds the slot, and changes none. -/
theorem idx_spec (granted : ∀ n, grants n = true) (enough : 2 ^ 21 < fuel) (sized : Sized server.table)
    (notNegative : 0 ≤ fd) (small : fd < 2 ^ 31) :
    ∃ table, server.idx grants fuel fd = some ({ server with table := table }, homeOf fd) ∧ Sized table ∧
      (table.read (homeOf fd)).isSome ∧ Extends server.table table := by
  have ⟨count, lined, few⟩ := sized
  have ⟨table, total, looks, linedNext, inside, _, fewNext, extended⟩ :=
    lined.idx granted notNegative small few enough
  refine ⟨table, by simp only [idx, looks], ⟨total, linedNext, fewNext⟩, ?_, extended⟩
  have ⟨held, found, full⟩ := linedNext.slots _ inside
  have offset : 0 ≤ fd % 1024 := by omega
  have below : (fd % 1024).toNat < held.length := by
    rw [full, maxEpollEvents]
    omega
  rw [Table.read, homeOf, found]
  simp only [if_pos offset, List.getElem?_eq_getElem below, Option.isSome_some]

/-! ### The event registry -/

theorem write_eq (writes : server.table.write (homeOf fd) new = some table) :
    server.write (homeOf fd) new = some { server with table := table } := by
  rw [write, writes]

theorem ntyEventSet_spec (notNegative : 0 ≤ fd) (found : server.table.read (homeOf fd) = some ev)
    (callback : Callback) :
    ∃ table, server.ntyEventSet (homeOf fd) fd (.client callback) = some { server with table := table } ∧
      table.read (homeOf fd) = some { ev with fd := fd, callback := some callback, events := 0 } ∧
      Kept fd server.table table := by
  have ⟨table, writes, reads, kept⟩ :=
    write_spec notNegative found { ev with fd := fd, callback := some callback, events := 0 }
  refine ⟨table, ?_, reads, kept⟩
  simp only [ntyEventSet, found, Option.bind_eq_bind, Option.bind_some, write_eq writes]

/-- A slot in use goes out of it, and its descriptor out of the interest set. -/
theorem ntyEventDel_spec (notNegative : 0 ≤ fd) (found : server.table.read (homeOf fd) = some ev)
    (sameFd : ev.fd = fd) (isOne : ev.status = 1) :
    ∃ table, server.ntyEventDel (homeOf fd) =
        some ({ server with table := table, interest := Function.update server.interest fd none }, 0) ∧
      table.read (homeOf fd) = some { ev with status := 0 } ∧ Kept fd server.table table := by
  have ⟨table, writes, reads, kept⟩ := write_spec notNegative found { ev with status := 0 }
  refine ⟨table, ?_, reads, kept⟩
  have isUsed : ¬ ev.status ≠ 1 := not_not.mpr isOne
  simp only [ntyEventDel, found, Option.bind_eq_bind, Option.bind_some, if_neg isUsed, write_eq writes]
  rw [sameFd]
  cases asked : server.interest fd with
  | some entry => simp [epollCtl, asked]
  | none =>
      have same : Function.update server.interest fd none = server.interest := by
        rw [← asked, Function.update_eq_self]
      simp [epollCtl, asked, same]

/-- On a descriptor that is open and not watched it does what the model of a single slot
says. -/
theorem ntyEventAdd_spec (notNegative : 0 ≤ fd) (found : server.table.read (homeOf fd) = some ev)
    (sameFd : ev.fd = fd) (isOpen : server.opened fd = true) (unasked : server.interest fd = none)
    (events : Int) (fails : Bool) :
    ∃ table result, server.ntyEventAdd (homeOf fd) events fails =
        some ({ server with
          table := table
          interest := Function.update server.interest fd
            (if (WebServer.ntyEventAdd ⟨ev, false⟩ events fails).1.registered then
              some ((WebServer.ntyEventAdd ⟨ev, false⟩ events fails).1.ev.events, homeOf fd)
            else none) },
          result) ∧
      table.read (homeOf fd) = some (WebServer.ntyEventAdd ⟨ev, false⟩ events fails).1.ev ∧
      Kept fd server.table table := by
  have ⟨table, writes, reads, kept⟩ :=
    write_spec notNegative found (WebServer.ntyEventAdd ⟨ev, false⟩ events fails).1.ev
  have same : Function.update server.interest fd none = server.interest := by
    rw [← unasked, Function.update_eq_self]
  by_cases isOne : ev.status = 1
  · have isSlot : WebServer.ntyEventAdd ⟨ev, false⟩ events fails =
        (⟨{ ev with events := events }, false⟩, -1) := by
      simp [WebServer.ntyEventAdd, WebServer.epollCtl, isOne]
    rw [isSlot] at writes reads ⊢
    refine ⟨table, -1, ?_, reads, kept⟩
    simp only [ntyEventAdd, found, Option.bind_eq_bind, Option.bind_some, if_pos isOne, write_eq writes]
    rw [sameFd]
    simp [epollCtl, unasked, same]
  · have isSlot : WebServer.ntyEventAdd ⟨ev, false⟩ events fails =
        (⟨{ ev with events := events, status := 1 }, !fails⟩, if fails then -1 else 0) := by
      cases fails <;> simp [WebServer.ntyEventAdd, WebServer.epollCtl, isOne]
    rw [isSlot] at writes reads ⊢
    refine ⟨table, if fails then -1 else 0, ?_, reads, kept⟩
    simp only [ntyEventAdd, found, Option.bind_eq_bind, Option.bind_some, if_neg isOne, write_eq writes]
    rw [sameFd]
    cases fails <;> simp [epollCtl, unasked, isOpen, same]

/-- The three calls that make a slot wait for something else, in the model of a single
connection. -/
def rearmed (ev : Ntyevent) (callback : Callback) (events : Int) (fails : Bool) : Slot :=
  let (slot, _) := WebServer.ntyEventDel ⟨ev, true⟩
  (WebServer.ntyEventAdd (WebServer.ntyEventSet slot slot.ev.fd callback) events fails).1

theorem rearmed_eq (isOne : ev.status = 1) (callback : Callback) (events : Int) (fails : Bool) :
    rearmed ev callback events fails =
      ⟨{ ev with callback := some callback, events := events, status := 1 }, !fails⟩ := by
  cases fails <;> simp [rearmed, WebServer.ntyEventDel, WebServer.ntyEventSet, WebServer.ntyEventAdd,
    WebServer.epollCtl, isOne]

theorem rearm_spec (notNegative : 0 ≤ fd) (found : server.table.read (homeOf fd) = some ev)
    (sameFd : ev.fd = fd) (isOne : ev.status = 1) (isOpen : server.opened fd = true) (callback : Callback)
    (events : Int) (fails : Bool) :
    ∃ table, (do
        let (server, _) ← server.ntyEventDel (homeOf fd)
        let server ← server.ntyEventSet (homeOf fd) fd (.client callback)
        let (server, _) ← server.ntyEventAdd (homeOf fd) events fails
        return server) =
        some { server with
          table := table
          interest := Function.update server.interest fd
            (if (rearmed ev callback events fails).registered then
              some ((rearmed ev callback events fails).ev.events, homeOf fd)
            else none) } ∧
      table.read (homeOf fd) = some (rearmed ev callback events fails).ev ∧ Kept fd server.table table := by
  have ⟨freed, deletes, foundFreed, keptFreed⟩ := ntyEventDel_spec notNegative found sameFd isOne
  have ⟨aimed, sets, foundAimed, keptAimed⟩ := @ntyEventSet_spec
    { server with table := freed, interest := Function.update server.interest fd none } fd _ notNegative foundFreed
    callback
  have ⟨table, result, adds, reads, kept⟩ := @ntyEventAdd_spec
    { server with table := aimed, interest := Function.update server.interest fd none } fd _ notNegative foundAimed
    rfl isOpen (Function.update_self ..) events fails
  have isSlot : (WebServer.ntyEventAdd
      ⟨{ ev with status := 0, fd := fd, callback := some callback, events := 0 }, false⟩ events fails).1 =
      rearmed ev callback events fails := by
    rw [rearmed_eq isOne, ← sameFd]
    cases fails <;> simp [WebServer.ntyEventAdd, WebServer.epollCtl]
  rw [isSlot] at adds reads
  refine ⟨table, ?_, reads, (keptFreed.trans keptAimed).trans kept⟩
  simp only [deletes, sets, adds, Option.bind_eq_bind, Option.bind_some, Function.update_idem]
  rfl

/-! ### Callbacks -/

/-- The server after a callback has left a slot like this, and the descriptor open or not:
all else is as it was, but that the table may have grown. -/
structure After (server : Server) (fd : Int) (slot : Slot) (isOpen : Bool) (next : Server) : Prop where
  found : next.table.read (homeOf fd) = some slot.ev
  interest : next.interest =
    Function.update server.interest fd (if slot.registered then some (slot.ev.events, homeOf fd) else none)
  opened : next.opened = Function.update server.opened fd isOpen
  pending : next.pending = server.pending
  acceptors : next.acceptors = server.acceptors
  sized : Sized next.table
  others : ∀ other, 0 ≤ other → other ≠ fd → next.slotAt other = server.slotAt other
  there : ∀ ptr, (server.table.read ptr).isSome → (next.table.read ptr).isSome

/-- The whole server does to a slot what the model of a single connection does, and faults
where it does. -/
def Follows (server : Server) (fd : Int) (slot : Option Slot) (isOpen : Bool) (result : Option Server) : Prop :=
  match slot with
  | none => result = none
  | some slot => ∃ next, result = some next ∧ After server fd slot isOpen next

theorem Follows.of_some {slot : Option Slot} {isOpen : Bool} (follows : Follows server fd slot isOpen (some next)) :
    ∃ taken, slot = some taken ∧ After server fd taken isOpen next := by
  cases slot with
  | none => cases follows
  | some taken =>
      have ⟨other, isNext, after⟩ := follows
      obtain rfl := Option.some.inj isNext
      exact ⟨taken, rfl, after⟩

theorem Follows.isSome_eq {slot : Option Slot} {isOpen : Bool} {result : Option Server}
    (follows : Follows server fd slot isOpen result) : result.isSome = slot.isSome := by
  cases slot with
  | none => exact congrArg Option.isSome follows
  | some taken =>
      have ⟨next, isNext, _⟩ := follows
      rw [isNext]
      rfl

theorem Kept.sized (kept : Kept fd table grown) (sized : Sized table) : Sized grown := by
  have ⟨count, lined, few⟩ := sized
  exact ⟨count, kept.lined count lined, few⟩

/-- After a lookup and what was written to the slot found. -/
theorem after_of_kept {slot : Slot} {isOpen : Bool} {asked : Int → Option (Int × EventAddr)} {opened : Int → Bool}
    (extended : Extends server.table table) (sized : Sized table) (kept : Kept fd table grown)
    (found : grown.read (homeOf fd) = some slot.ev)
    (isAsked : asked =
      Function.update server.interest fd (if slot.registered then some (slot.ev.events, homeOf fd) else none))
    (isOpened : opened = Function.update server.opened fd isOpen) :
    After server fd slot isOpen ⟨grown, server.acceptors, opened, asked, server.pending⟩ where
  found := found
  interest := isAsked
  opened := isOpened
  pending := rfl
  acceptors := rfl
  sized := kept.sized sized
  others other notNegative different :=
    (kept.others other notNegative different).trans (slotIn_of_extends extended other)
  there ptr isThere := by
    have ⟨ev, isEv⟩ := Option.isSome_iff_exists.mp isThere
    exact kept.there ptr (by rw [extended.kept _ _ isEv]; rfl)

theorem httpRequest_frame {request : Ntyevent} (requested : httpRequest ev = some request) :
    request.fd = ev.fd ∧ request.status = ev.status := by
  unfold httpRequest at requested
  simp only [Option.bind_eq_bind, Option.bind_eq_some_iff] at requested
  have ⟨read, _, found, _, rest⟩ := requested
  split at rest
  · simp only [Option.bind_eq_some_iff] at rest
    have ⟨i, _, uri, _, fits⟩ := rest
    split at fits
    · rw [← Option.some.inj fits]
      exact ⟨rfl, rfl⟩
    · cases fits
  · simp only [Option.bind_eq_some_iff] at rest
    have ⟨_, _, same⟩ := rest
    rw [← Option.some.inj same]
    exact ⟨rfl, rfl⟩

theorem httpResponse_fd (ev : Ntyevent) (files : FileSystem) : (httpResponse ev files).1.fd = ev.fd := by
  cases replies : replyTo (files.lookup ev.resource) with
  | none => rw [httpResponse_other (replyTo_eq_none_iff.mp replies)]
  | some reply =>
      rw [httpResponse_of_reply replies]
      rfl

theorem receive_frame {got : Ntyevent} {bytes : List UInt8} (received : receive ev bytes = some got) :
    got.fd = ev.fd ∧ got.status = ev.status := by
  unfold receive at received
  split at received
  · rw [← Option.some.inj received]
    exact ⟨rfl, rfl⟩
  · cases received

/-- A descriptor in the interest set, and what its slot says. -/
structure Used (server : Server) (fd : Int) : Prop where
  notNegative : 0 ≤ fd
  small : fd < 2 ^ 31
  isOpen : server.opened fd = true
  there : (server.table.read (homeOf fd)).isSome
  sameFd : (server.slotAt fd).fd = fd
  status : (server.slotAt fd).status = 1

/-- A slot in use is found as it is, with the table as it was. -/
theorem Used.idx (used : Used server fd) (granted : ∀ n, grants n = true) (enough : 2 ^ 21 < fuel)
    (sized : Sized server.table) :
    ∃ table, server.idx grants fuel fd = some ({ server with table := table }, homeOf fd) ∧ Sized table ∧
      table.read (homeOf fd) = some (server.slotAt fd) ∧ Extends server.table table := by
  have ⟨table, looks, sizedNext, _, extended⟩ := idx_spec granted enough sized used.notNegative used.small
  have ⟨ev, found⟩ := Option.isSome_iff_exists.mp used.there
  refine ⟨table, looks, sizedNext, ?_, extended⟩
  rw [slotAt, slotIn_eq found]
  exact extended.kept _ _ found

theorem Used.recvCb (used : Used server fd) (granted : ∀ n, grants n = true) (enough : 2 ^ 21 < fuel)
    (sized : Sized server.table) (bytes : List UInt8) (fails : Bool) :
    Follows server fd (WebServer.recvCb ⟨server.slotAt fd, true⟩ bytes fails) (decide (bytes.length > 0))
      (server.recvCb grants fuel fd bytes fails) := by
  have ⟨table, looks, sizedNext, found, extended⟩ := used.idx granted enough sized
  unfold Follows WebServer.recvCb Server.recvCb
  by_cases delivered : bytes.length > 0
  · simp only [if_pos delivered, looks, found, Option.bind_eq_bind, Option.bind_some]
    cases received : receive (server.slotAt fd) bytes with
    | none => rfl
    | some got =>
        simp only [Option.bind_some]
        cases requested : httpRequest got with
        | none => rfl
        | some request =>
            have ⟨gotFd, gotStatus⟩ := receive_frame received
            have ⟨requestFd, requestStatus⟩ := httpRequest_frame requested
            have ⟨written, writes, foundWritten, keptWritten⟩ := write_spec used.notNegative found request
            have sameFd : request.fd = fd := by rw [requestFd, gotFd, used.sameFd]
            have isOne : request.status = 1 := by rw [requestStatus, gotStatus, used.status]
            have ⟨armed, rearms, reads, keptArmed⟩ := @rearm_spec { server with table := written } fd request
              used.notNegative foundWritten sameFd isOne used.isOpen .sendCb epollout fails
            have stores := @write_eq { server with table := table } written fd request writes
            simp only [Option.bind_eq_bind] at rearms
            simp only [Option.bind_some, stores, rearms]
            refine ⟨_, rfl, after_of_kept extended sizedNext (keptWritten.trans keptArmed) reads rfl ?_⟩
            rw [decide_eq_true delivered, ← used.isOpen, Function.update_eq_self]
  · simp only [if_neg delivered, looks, Option.bind_eq_bind, Option.bind_some]
    have ⟨freed, deletes, foundFreed, kept⟩ :=
      @ntyEventDel_spec { server with table := table } fd _ used.notNegative found used.sameFd used.status
    simp only [deletes, foundFreed, Option.bind_some]
    refine ⟨_, rfl, after_of_kept extended sizedNext kept ?_ ?_ ?_⟩
    · simp [WebServer.ntyEventDel, used.status, foundFreed]
    · simp [used.sameFd]
    · simp [used.sameFd, delivered]

theorem Used.sendCb (used : Used server fd) (granted : ∀ n, grants n = true) (enough : 2 ^ 21 < fuel)
    (sized : Sized server.table) (files : FileSystem) (sent fails : Bool) :
    Follows server fd (WebServer.sendCb ⟨server.slotAt fd, true⟩ files sent fails) sent
      (server.sendCb grants fuel files fd sent fails) := by
  have ⟨table, looks, sizedNext, found, extended⟩ := used.idx granted enough sized
  unfold Follows WebServer.sendCb Server.sendCb
  simp only [looks, found, Option.bind_eq_bind, Option.bind_some]
  generalize isAnswer : (httpResponse (server.slotAt fd) files).1 = answer
  have sameFd : answer.fd = fd := by
    rw [← isAnswer, httpResponse_fd, used.sameFd]
  have isOne : answer.status = 1 := by
    rw [← isAnswer, (httpResponse_frame _ files).2.1, used.status]
  cases sendBytes answer with
  | none => rfl
  | some response =>
      have ⟨written, writes, foundWritten, keptWritten⟩ := write_spec used.notNegative found answer
      have stores := @write_eq { server with table := table } written fd answer writes
      simp only [Option.bind_some, stores]
      cases sent with
      | true =>
          have ⟨armed, rearms, reads, keptArmed⟩ := @rearm_spec { server with table := written } fd answer
            used.notNegative foundWritten sameFd isOne used.isOpen .recvCb epollin fails
          simp only [Option.bind_eq_bind] at rearms
          simp only [if_true, rearms]
          refine ⟨_, rfl, after_of_kept extended sizedNext (keptWritten.trans keptArmed) reads rfl ?_⟩
          rw [← used.isOpen, Function.update_eq_self]
      | false =>
          have ⟨freed, deletes, foundFreed, kept⟩ := @ntyEventDel_spec
            (Server.close { server with table := written } fd) fd _ used.notNegative foundWritten sameFd isOne
          simp only [Bool.false_eq_true, if_false, sameFd, deletes, Option.bind_some]
          refine ⟨_, rfl, after_of_kept extended sizedNext (keptWritten.trans kept) ?_ ?_ rfl⟩
          · simp [WebServer.ntyEventDel, isOne, foundFreed]
          · simp [WebServer.ntyEventDel, WebServer.epollCtl, isOne, Server.close]

/-- The slot of a descriptor that has just been handed out may be one that was not there. -/
theorem acceptCb_spec (granted : ∀ n, grants n = true) (enough : 2 ^ 21 < fuel) (sized : Sized server.table)
    (notNegative : 0 ≤ fd) (small : fd < 2 ^ 31) (unasked : server.interest fd = none) (fails : Bool) :
    ∃ next, server.acceptCb grants fuel (some fd) true fails = some next ∧
      After server fd (WebServer.acceptCb ⟨server.slotAt fd, false⟩ fd fails) true next := by
  have ⟨table, looks, sizedNext, isThere, extended⟩ := @idx_spec _ _
    { server with opened := Function.update server.opened fd true } fd granted enough sized notNegative small
  have ⟨ev, found⟩ := Option.isSome_iff_exists.mp isThere
  have isSlot : server.slotAt fd = ev := by
    rw [slotAt, ← slotIn_of_extends extended fd, slotIn_eq found]
  have ⟨aimed, sets, foundAimed, keptAimed⟩ := @ntyEventSet_spec
    { server with table := table, opened := Function.update server.opened fd true } fd _ notNegative found .recvCb
  have ⟨added, result, adds, reads, keptAdded⟩ := @ntyEventAdd_spec
    { server with table := aimed, opened := Function.update server.opened fd true } fd _ notNegative foundAimed rfl
    (Function.update_self ..) unasked epollin fails
  rw [isSlot]
  refine ⟨_, ?_, after_of_kept extended sizedNext (keptAimed.trans keptAdded) reads rfl rfl⟩
  simp only [Server.acceptCb, if_true, looks, sets, adds, Option.bind_eq_bind, Option.bind_some]
  rfl

end Server

end SimpleBasicComponents.WebServer
