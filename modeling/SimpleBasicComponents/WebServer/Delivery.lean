import SimpleBasicComponents.WebServer.Responses

/-!
What the peer gets of a response.

Owns: `send_cb` with what `send` and `sendfile` return and the bytes they pass
on, the machine of a connection in which both may stop short, and the exact
condition under which every response that `send_cb` takes for sent has arrived
whole. Each of the two is called once, and what it returns is not looked at
again.
-/

namespace SimpleBasicComponents.WebServer

open SimpleBasicComponents.Semantics

inductive Content where
  | directory
  | regular (bytes : List UInt8)
  | other
deriving DecidableEq, Repr

/-- What paths name. The size of a file is an `off_t`. -/
structure Storage where
  content : List UInt8 → Option Content
  noEmptyPath : content [] = none
  small : ∀ path bytes, content path = some (.regular bytes) → bytes.length < 2 ^ 63

def Content.file : Content → File
  | .directory => .directory
  | .regular bytes => .regular (UInt64.ofNat bytes.length)
  | .other => .other

/-- The file system as `open` and `fstat` show it. -/
def Storage.files (storage : Storage) : FileSystem where
  lookup path := (storage.content path).map Content.file
  noEmptyPath := by rw [storage.noEmptyPath, Option.map_none]

/-- `st_size`, which is 0 for what has no size. -/
def Storage.size (storage : Storage) (path : List UInt8) : Nat :=
  match storage.content path with
  | some (.regular bytes) => bytes.length
  | _ => 0

/-- What `sendfile` passes on when it returns `passed`. -/
def Storage.sendfile (storage : Storage) (path : List UInt8) (passed : Int) : List UInt8 :=
  match storage.content path with
  | some (.regular bytes) => bytes.take passed.toNat
  | _ => []

namespace Delivery

/-- A response that was taken for sent, and the bytes the peer has got. -/
structure Sent where
  ev : Ntyevent
  bytes : List UInt8
deriving DecidableEq, Repr

/-- `count` and `passed` are what `send` and `sendfile` return. -/
def sendCb (slot : Slot) (storage : Storage) (count passed : Int) (fails : Bool) :
    Option (Slot × List Sent) := do
  let (ev, _) := httpResponse slot.ev storage.files
  let response ← sendBytes ev
  let slot := { slot with ev := ev }
  if count > 0 then
    let body := if ev.retCode = 200 then storage.sendfile ev.resource passed else []
    let (slot, _) := ntyEventDel slot
    some ((ntyEventAdd (ntyEventSet slot slot.ev.fd .recvCb) epollin fails).1,
      [⟨ev, response.take count.toNat ++ body⟩])
  else some ((ntyEventDel { slot with registered := false }).1, [])

/-- Seen from the slot, it is the callback without the counts. -/
theorem sendCb_slot (slot : Slot) (storage : Storage) (count passed : Int) (fails : Bool) :
    (sendCb slot storage count passed fails).map Prod.fst =
      WebServer.sendCb slot storage.files (decide (count > 0)) fails := by
  unfold sendCb WebServer.sendCb
  generalize httpResponse slot.ev storage.files = responded
  obtain ⟨ev, result⟩ := responded
  cases sends : sendBytes ev with
  | none => simp [sends]
  | some response => by_cases positive : count > 0 <;> simp [sends, positive]

inductive Call where
  | accept (fails : Bool)
  | recv (bytes : List UInt8) (fails : Bool)
  | send (count passed : Int) (fails : Bool)
deriving DecidableEq, Repr

/-- Neither system call passes on more than it is asked to. -/
def Allowed (slot : Slot) (storage : Storage) (count passed : Int) : Prop :=
  count ≤ (httpResponse slot.ev storage.files).2 ∧ passed ≤ storage.size slot.ev.resource

instance (slot : Slot) (storage : Storage) (count passed : Int) :
    Decidable (Allowed slot storage count passed) := by
  unfold Allowed
  infer_instance

def step (fd : Int) (storage : Storage) (connection : Connection) :
    Call → Option (Connection × List Sent)
  | .accept fails =>
      (WebServer.step fd storage.files connection (.accept fails)).map fun next => (next.1, [])
  | .recv bytes fails =>
      (WebServer.step fd storage.files connection (.recv bytes fails)).map fun next => (next.1, [])
  | .send count passed fails =>
      if connection.Awaits .sendCb epollout ∧ Allowed connection.slot storage count passed then
        (sendCb connection.slot storage count passed fails).map fun next =>
          (⟨next.1, decide (count > 0)⟩, next.2)
      else none

def machine (fd : Int) (storage : Storage) : Machine Connection Call Sent where
  start := {}
  step := step fd storage

/-- The whole header has arrived and, for a 200, the whole file behind it, with as
many bytes as the header announces. -/
def Sent.Whole (storage : Storage) (sent : Sent) : Prop :=
  ∃ body, sent.bytes = sent.ev.buffer.take sent.ev.length.toNat ++ body ∧
    if sent.ev.retCode = 200 then
      storage.content sent.ev.resource = some (.regular body) ∧
        ∃ size : UInt64, size.toNat = body.length ∧
          sent.ev.buffer.take sent.ev.length.toNat = ascii (okText size)
    else body = []

/-- `send` takes the whole header and `sendfile` the whole file; where there is
neither a file nor a 404 to send, no 200 is left over. -/
def Suffices (storage : Storage) (ev : Ntyevent) (count passed : Int) : Prop :=
  match storage.content ev.resource with
  | some (.regular bytes) =>
      (ascii (okText (UInt64.ofNat bytes.length))).length ≤ count ∧ bytes.length ≤ passed.toNat
  | some .other => ev.length ≤ count ∧ ev.retCode ≠ 200
  | some .directory | none => (ascii notFoundText).length ≤ count

/-- If `send` takes anything, the two get everything through. -/
def Uncut (storage : Storage) (connection : Connection) : Call → Prop
  | .send count passed _ => 0 < count → Suffices storage connection.slot.ev count passed
  | .accept _ | .recv _ _ => True

theorem Sent.whole_iff_of_ne {storage : Storage} {sent : Sent} (notOk : sent.ev.retCode ≠ 200) :
    sent.Whole storage ↔ sent.bytes = sent.ev.buffer.take sent.ev.length.toNat := by
  unfold Sent.Whole
  simp only [if_neg notOk, exists_eq_right, List.append_nil]

variable {storage : Storage} {slot : Slot} {header bytes : List UInt8} {fd count passed : Int}

/-- Two lists cut short make the whole only if neither is. -/
theorem take_append_take_eq_iff {one two : Nat} :
    header.take one ++ bytes.take two = header ++ bytes ↔ header.length ≤ one ∧ bytes.length ≤ two := by
  constructor
  · intro same
    have lengths := congrArg List.length same
    rw [List.length_append, List.length_append, List.length_take, List.length_take] at lengths
    omega
  · rintro ⟨wholeHeader, wholeBytes⟩
    rw [List.take_of_length_le wholeHeader, List.take_of_length_le wholeBytes]

theorem take_eq_self_iff {one : Nat} : header.take one = header ↔ header.length ≤ one := by
  constructor
  · intro same
    rw [← same]
    exact List.length_take_le _ _
  · exact List.take_of_length_le

/-- The bytes of the text are the response, and its length is the number of them. -/
theorem take_sprintf (ev : Ntyevent) (text : String) :
    (sprintf ev text).buffer.take (sprintf ev text).length.toNat = ascii text := by
  unfold sprintf
  rw [Int.toNat_natCast, List.take_left]

theorem sendBytes_eq_some {ev : Ntyevent} {response : List UInt8} (sends : sendBytes ev = some response) :
    (0 ≤ ev.length ∧ ev.length ≤ bufferLength) ∧ response = ev.buffer.take ev.length.toNat := by
  unfold sendBytes at sends
  split at sends
  · next inside => exact ⟨inside, (Option.some.inj sends).symm⟩
  · contradiction

/-- A response the kernel takes something of, with what the peer gets. -/
theorem sendCb_eq {ev : Ntyevent} {response : List UInt8} (positive : 0 < count) (fails : Bool)
    (isResponse : (httpResponse slot.ev storage.files).1 = ev) (sends : sendBytes ev = some response) :
    ∃ next, sendCb slot storage count passed fails = some (next, [⟨ev, response.take count.toNat ++
      if ev.retCode = 200 then storage.sendfile ev.resource passed else []⟩]) := by
  unfold sendCb
  simp only [isResponse, sends, Option.bind_eq_bind, Option.bind_some, if_pos positive]
  exact ⟨_, rfl⟩

/-- A text that the response consists of. -/
private theorem sent_of_reply {code : Int} {text : String} (positive : 0 < count) {fails : Bool}
    (replies : replyTo (storage.files.lookup slot.ev.resource) = some (code, text))
    {next : Slot} {sent : List Sent} (taken : sendCb slot storage count passed fails = some (next, sent)) :
    ∃ ev, sent = [⟨ev, (ascii text).take count.toNat ++
        if code = 200 then storage.sendfile slot.ev.resource passed else []⟩] ∧
      ev.retCode = code ∧ ev.resource = slot.ev.resource ∧
      ev.buffer.take ev.length.toNat = ascii text := by
  have isResponse := httpResponse_of_reply replies
  obtain ⟨other, isTaken⟩ := @sendCb_eq storage slot count passed _ _ positive fails isResponse
    (sendBytes_sprintf (length_replyTo replies))
  obtain ⟨rfl, rfl⟩ := Prod.mk.inj (Option.some.inj (isTaken.symm.trans taken))
  exact ⟨_, rfl, rfl, rfl, take_sprintf _ _⟩

theorem lookup_files (storage : Storage) (path : List UInt8) :
    storage.files.lookup path = (storage.content path).map Content.file := rfl

/-- What one `send_cb` has to get through. -/
theorem whole_iff_suffices {fails : Bool} {next : Slot} {sent : List Sent} (positive : 0 < count)
    (taken : sendCb slot storage count passed fails = some (next, sent)) :
    (∀ response ∈ sent, response.Whole storage) ↔ Suffices storage slot.ev count passed := by
  have lookup := lookup_files storage slot.ev.resource
  have notFound (replies : replyTo (storage.files.lookup slot.ev.resource) = some (404, notFoundText)) :
      (∀ response ∈ sent, response.Whole storage) ↔ (ascii notFoundText).length ≤ count := by
    obtain ⟨ev, rfl, isCode, isResource, isHeader⟩ := sent_of_reply positive replies taken
    rw [List.forall_mem_singleton, if_neg (by decide),
      Sent.whole_iff_of_ne (show ev.retCode ≠ 200 by rw [isCode]; decide), isHeader, List.append_nil,
      take_eq_self_iff]
    omega
  unfold Suffices
  cases found : storage.content slot.ev.resource with
  | none =>
      rw [found] at lookup
      exact notFound (by rw [lookup]; rfl)
  | some content =>
      rw [found] at lookup
      cases content with
      | directory => exact notFound (by rw [lookup]; rfl)
      | regular bytes =>
          have replies : replyTo (storage.files.lookup slot.ev.resource) =
              some (200, okText (UInt64.ofNat bytes.length)) := by
            rw [lookup]
            rfl
          obtain ⟨ev, rfl, isCode, isResource, isHeader⟩ := sent_of_reply positive replies taken
          have passedOn : storage.sendfile slot.ev.resource passed = bytes.take passed.toNat := by
            unfold Storage.sendfile
            rw [found]
          have small := storage.small _ _ found
          have isSize : (UInt64.ofNat bytes.length).toNat = bytes.length := by
            rw [UInt64.toNat_ofNat']
            omega
          rw [List.forall_mem_singleton, if_pos rfl, passedOn]
          unfold Sent.Whole
          simp only [isCode, isHeader, isResource, found, if_true, Option.some.injEq, Content.regular.injEq]
          constructor
          · rintro ⟨body, arrived, rfl, -⟩
            have both := take_append_take_eq_iff.mp arrived
            exact ⟨by omega, both.2⟩
          · rintro ⟨wholeHeader, wholeFile⟩
            exact ⟨bytes, take_append_take_eq_iff.mpr ⟨by omega, wholeFile⟩, rfl, _, isSize, rfl⟩
      | other =>
          have isResponse := httpResponse_other (by rw [lookup]; rfl)
          generalize isEv : ({ slot.ev with buffer := List.replicate bufferLength 0 } : Ntyevent) = ev at isResponse
          cases sends : sendBytes ev with
          | none =>
              rw [sendCb, ← Prod.mk.eta (p := httpResponse slot.ev storage.files), isResponse] at taken
              simp [sends] at taken
          | some response =>
              obtain ⟨other, isTaken⟩ := @sendCb_eq storage slot count passed _ _ positive fails isResponse sends
              obtain ⟨rfl, rfl⟩ := Prod.mk.inj (Option.some.inj (isTaken.symm.trans taken))
              have sameCode : ev.retCode = slot.ev.retCode := by rw [← isEv]
              have samePath : ev.resource = slot.ev.resource := by rw [← isEv]
              have sameLength : ev.length = slot.ev.length := by rw [← isEv]
              rw [List.forall_mem_singleton, ← sameCode, ← sameLength]
              by_cases isOk : ev.retCode = 200
              · refine iff_of_false ?_ fun both => both.2 isOk
                rintro ⟨body, -, isFile⟩
                rw [if_pos isOk, samePath, found] at isFile
                simp at isFile
              · rw [Sent.whole_iff_of_ne isOk, if_neg isOk, List.append_nil, and_iff_left isOk]
                obtain ⟨⟨positiveLength, within⟩, rfl⟩ := sendBytes_eq_some sends
                have isSize : ev.buffer.length = bufferLength := by
                  rw [← isEv, List.length_replicate]
                rw [take_eq_self_iff, List.length_take, isSize]
                omega

/-- A call that `send` takes nothing of shows nothing. -/
private theorem sendCb_refused {fails : Bool} {next : Slot} {sent : List Sent} (refused : ¬ 0 < count)
    (taken : sendCb slot storage count passed fails = some (next, sent)) : sent = [] := by
  unfold sendCb at taken
  generalize httpResponse slot.ev storage.files = responded at taken
  obtain ⟨ev, result⟩ := responded
  cases sends : sendBytes ev with
  | none => simp [sends] at taken
  | some response =>
      simp only [sends, Option.bind_eq_bind, Option.bind_some, if_neg refused] at taken
      exact (Prod.mk.inj (Option.some.inj taken)).2.symm

theorem step_whole_iff {connection next : Connection} {call : Call} {sent : List Sent}
    (taken : (machine fd storage).step connection call = some (next, sent)) :
    (∀ response ∈ sent, response.Whole storage) ↔ Uncut storage connection call := by
  change step fd storage connection call = some (next, sent) at taken
  cases call with
  | accept fails | recv bytes fails =>
      simp only [step, Option.map_eq_some_iff] at taken
      obtain ⟨_, -, same⟩ := taken
      obtain ⟨-, rfl⟩ := Prod.mk.inj same
      exact iff_of_true (by simp) trivial
  | send count passed fails =>
      simp only [step] at taken
      split at taken
      · obtain ⟨⟨slot, shown⟩, sends, same⟩ := Option.map_eq_some_iff.mp taken
        obtain ⟨-, rfl⟩ := Prod.mk.inj same
        show _ ↔ (0 < count → Suffices storage connection.slot.ev count passed)
        by_cases positive : 0 < count
        · rw [imp_iff_right positive]
          exact whole_iff_suffices positive sends
        · obtain rfl := sendCb_refused positive sends
          exact iff_of_true (by simp) fun absurdity => absurd absurdity positive
      · contradiction

/-- Every response of a run has arrived whole exactly if every `send` and
`sendfile` that counted took everything. -/
theorem whole_iff_uncut {calls : List Call} {connection : Connection} {sent : List Sent}
    (exec : (machine fd storage).Exec calls connection sent) :
    (∀ response ∈ sent, response.Whole storage) ↔ (machine fd storage).Guarded (Uncut storage) calls := by
  induction exec with
  | start => exact iff_of_true (by simp) Machine.guarded_nil
  | @step calls connection next seen shown call before taken inductionHypothesis =>
      have now := step_whole_iff taken
      rw [List.forall_mem_append, Machine.guarded_snoc_iff, inductionHypothesis, now]
      refine and_congr_right fun _ => ⟨fun uncut other events ran => ?_, fun uncut => uncut _ _ before⟩
      obtain ⟨rfl, -⟩ := ran.functional before
      exact uncut

/-- One file of three bytes. -/
def threeBytes : Storage where
  content path := if path = ascii "./html/a" then some (.regular [1, 2, 3]) else none
  noEmptyPath := rfl
  small := by
    intro path bytes isFile
    split at isFile
    · obtain rfl := Content.regular.inj (Option.some.inj isFile)
      decide
    · contradiction

/-- A request for the file; `sendfile` passes one byte of it on. -/
def shortFile : List Call :=
  [.accept false, .recv (ascii "GET /a HTTP/1.1\r\n\r\n") false, .send 119 1 false]

private theorem shortFile_exec :
    ∃ connection sent, (machine 5 threeBytes).Exec shortFile connection sent ∧
      ¬ ∀ response ∈ sent, response.Whole threeBytes := by
  have exec := (machine 5 threeBytes).exec_of_isSome shortFile (by decide +kernel)
  refine ⟨_, _, exec, fun whole => ?_⟩
  have shown : ∃ response ∈ (((machine 5 threeBytes).run shortFile).get (by decide +kernel)).2,
      response.ev.retCode = 200 ∧ response.ev.resource = ascii "./html/a" ∧
        response.bytes.length = (response.ev.buffer.take response.ev.length.toNat).length + 1 := by
    decide +kernel
  obtain ⟨response, member, isOk, isPath, isLength⟩ := shown
  obtain ⟨body, arrived, isFile⟩ := whole response member
  rw [if_pos isOk, isPath] at isFile
  have three : [1, 2, 3] = body := Content.regular.inj (Option.some.inj isFile.1)
  rw [arrived, List.length_append, ← three] at isLength
  simp at isLength

/-- The connection waits for its next request, and two bytes are missing. -/
theorem shortFile_not_whole :
    ∃ connection sent, (machine 5 threeBytes).Exec shortFile connection sent ∧
      ¬ ∀ response ∈ sent, response.Whole threeBytes :=
  shortFile_exec

theorem shortFile_not_uncut : ¬ (machine 5 threeBytes).Guarded (Uncut threeBytes) shortFile := by
  obtain ⟨connection, sent, exec, cut⟩ := shortFile_exec
  exact fun uncut => cut ((whole_iff_uncut exec).mpr uncut)

end Delivery

end SimpleBasicComponents.WebServer
