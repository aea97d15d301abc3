import Mathlib.Data.Nat.Digits.Defs
import SimpleBasicComponents.WebServer.Model

/-!
What a response depends on.

Owns: the calls on a connection slot over the connections that use it one after
the other, what `http_request` makes of a received buffer, and the exact
condition under which the response to a request is the same after every history
of the slot. `http_request` leaves `resource` as it was unless the request line
has a GET, and `http_response` leaves `ret_code` as it was for a path that is
neither a directory nor a regular file.
-/

namespace SimpleBasicComponents.WebServer

open SimpleBasicComponents.Semantics

/-! ### Histories of a slot -/

structure Connection where
  slot : Slot := {}
  isOpen : Bool := false
deriving DecidableEq, Repr

inductive Call where
  | accept (fails : Bool)
  | recv (bytes : List UInt8) (fails : Bool)
  | send (sent fails : Bool)
deriving DecidableEq, Repr

/-- The reactor's loop dispatches only what the slot waits for. -/
def Connection.Awaits (connection : Connection) (callback : Callback) (events : Int) : Prop :=
  connection.isOpen = true ∧ connection.slot.registered = true ∧
    connection.slot.ev.callback = some callback ∧ connection.slot.ev.events = events

instance (connection : Connection) (callback : Callback) (events : Int) :
    Decidable (connection.Awaits callback events) := by
  unfold Connection.Awaits
  infer_instance

def step (fd : Int) (files : FileSystem) (connection : Connection) :
    Call → Option (Connection × List Unit)
  | .accept fails =>
      if connection.isOpen then none
      else some (⟨acceptCb connection.slot fd fails, true⟩, [])
  | .recv bytes fails =>
      if connection.Awaits .recvCb epollin then
        (recvCb connection.slot bytes fails).map fun slot => (⟨slot, decide (bytes.length > 0)⟩, [])
      else none
  | .send sent fails =>
      if connection.Awaits .sendCb epollout then
        (sendCb connection.slot files sent fails).map fun slot => (⟨slot, sent⟩, [])
      else none

def machine (fd : Int) (files : FileSystem) : Machine Connection Call Unit where
  start := {}
  step := step fd files

/-- The slot after `http_request` and `http_response` on a request, and the bytes sent. -/
def answer (files : FileSystem) (ev : Ntyevent) (bytes : List UInt8) :
    Option (Ntyevent × List UInt8) := do
  let ev ← receive ev bytes
  let ev ← httpRequest ev
  let (ev, _) := httpResponse ev files
  let response ← sendBytes ev
  some (ev, response)

/-- What the peer and the next callback can see of an answer. -/
def outcome (answered : Ntyevent × List UInt8) : List UInt8 × Int × Int × List UInt8 :=
  (answered.1.resource, answered.1.retCode, answered.1.length, answered.2)

/-- After any two histories of the slot the request has one and the same outcome. -/
def OwnResponse (fd : Int) (files : FileSystem) (bytes : List UInt8) : Prop :=
  ∀ one two first second seen other, (machine fd files).Exec one first seen →
    (machine fd files).Exec two second other → first.Awaits .recvCb epollin →
    second.Awaits .recvCb epollin →
    ∃ same, (answer files first.slot.ev bytes).map outcome = some same ∧
      (answer files second.slot.ev bytes).map outcome = some same

/-! ### What a request says -/

/-- The characters before the first line end. -/
def requestLine (bytes : List UInt8) : List UInt8 := (readlineLoop (bytes.takeWhile (· ≠ 0)) 0).1

def uri (line : List UInt8) : List UInt8 := (line.drop sizeofGet).takeWhile (· ≠ 32)

/-- The line has a GET in it. -/
def HasGet (line : List UInt8) : Prop := ascii "GET" <:+: line

instance (line : List UInt8) : Decidable (HasGet line) := by
  unfold HasGet
  infer_instance

/-- The line fits its buffer, and a GET is found in it before its end where there is
no zero byte behind it. -/
def LineFits (line : List UInt8) : Prop :=
  line.length ≤ linebufLength ∧ (line.length = linebufLength → HasGet line)

instance (line : List UInt8) : Decidable (LineFits line) := by
  unfold LineFits
  infer_instance

/-- The request line fits its buffer, is a GET and names something `http_response`
has an answer for. -/
structure Answerable (files : FileSystem) (bytes : List UInt8) : Prop where
  received : bytes.length < bufferLength
  fits : (requestLine bytes).length ≤ linebufLength
  isGet : HasGet (requestLine bytes)
  space : 32 ∈ (requestLine bytes).drop sizeofGet
  known : files.lookup (ascii "./html/" ++ uri (requestLine bytes)) ≠ some .other

variable {files : FileSystem} {ev : Ntyevent} {bytes line chars : List UInt8}

theorem mem_readlineLoop {idx : Nat} {char : UInt8} (member : char ∈ (readlineLoop chars idx).1) :
    char ∈ chars := by
  induction chars generalizing idx with
  | nil => simp [readlineLoop] at member
  | cons head rest inductionHypothesis =>
      unfold readlineLoop at member
      split at member
      · simp at member
      · rcases List.mem_cons.mp member with rfl | later
        · exact List.mem_cons_self ..
        · exact List.mem_cons_of_mem _ (inductionHypothesis later)

theorem requestLine_clean (bytes : List UInt8) : 0 ∉ requestLine bytes :=
  fun member => zero_notMem_takeWhile bytes (mem_readlineLoop member)

theorem spaceFrom_eq_none (noSpace : 32 ∉ chars) : spaceFrom chars = none := by
  induction chars with
  | nil => rfl
  | cons char rest inductionHypothesis =>
      rw [List.mem_cons, not_or] at noSpace
      unfold spaceFrom
      rw [if_pos (Ne.symm noSpace.1), inductionHypothesis noSpace.2]
      rfl

theorem spaceFrom_append (noSpace : 32 ∉ chars) (rest : List UInt8) :
    spaceFrom (chars ++ 32 :: rest) = some chars.length := by
  induction chars with
  | nil => rfl
  | cons char chars inductionHypothesis =>
      rw [List.mem_cons, not_or] at noSpace
      rw [List.cons_append]
      unfold spaceFrom
      rw [if_pos (Ne.symm noSpace.1), inductionHypothesis noSpace.2]
      rfl

/-- The scan for the end of the URI finds none of the zero bytes behind the line. -/
theorem spaceFrom_linebuf (line : List UInt8) (count : Nat) :
    spaceFrom ((line ++ List.replicate count 0).drop sizeofGet) =
      if 32 ∈ line.drop sizeofGet then some (uri line).length else none := by
  rw [List.drop_append, List.drop_replicate]
  by_cases space : 32 ∈ line.drop sizeofGet
  · obtain ⟨after, split⟩ := split_at_first space
    have noSpace : 32 ∉ uri line := by
      intro member
      have notSpace := List.mem_takeWhile_imp member
      simp at notSpace
    rw [if_pos space, split, List.append_assoc]
    exact spaceFrom_append noSpace _
  · rw [if_neg space]
    apply spaceFrom_eq_none
    rw [List.mem_append, not_or]
    exact ⟨space, fun member => by simpa using List.eq_of_mem_replicate member⟩

theorem uri_subset {char : UInt8} (member : char ∈ uri line) : char ∈ line :=
  List.mem_of_mem_drop (List.takeWhile_subset _ member)

/-- The bytes behind `GET /`, once a zero byte has been put over the first space. -/
private theorem cut_at_space (clean : 0 ∉ line) (space : 32 ∈ line.drop sizeofGet) (rest : List UInt8) :
    cstring (((line ++ rest).set (sizeofGet + (uri line).length) 0).drop sizeofGet) = some (uri line) := by
  have long : sizeofGet ≤ line.length := by
    by_contra short
    rw [List.drop_of_length_le (by omega)] at space
    simp at space
  obtain ⟨after, split⟩ := split_at_first space
  rw [← uri] at split
  rw [List.drop_set, if_neg (by omega), List.drop_append_of_le_length long, split, Nat.add_sub_cancel_left,
    List.append_assoc, List.set_append_right _ _ (Nat.le_refl _), Nat.sub_self]
  exact cstring_append fun member => clean (uri_subset member)

/-- A text without zero bytes does not reach into the zero bytes behind the line. -/
theorem prefix_linebuf_iff (line : List UInt8) {needle : List UInt8} (plain : 0 ∉ needle)
    (count : Nat) :
    needle <+: line ++ List.replicate count 0 ↔ needle <+: line := by
  constructor
  · intro starts
    rcases List.prefix_or_prefix_of_prefix starts (List.prefix_append line _) with inside | beyond
    · exact inside
    · have ⟨more, isNeedle⟩ := beyond
      rw [← isNeedle, List.prefix_append_right_inj] at starts
      cases more with
      | nil => exact ⟨[], by rw [List.append_nil, ← isNeedle, List.append_nil]⟩
      | cons char more =>
          have isZero := List.eq_of_mem_replicate (starts.subset List.mem_cons_self)
          exact absurd (by rw [← isNeedle, isZero]; simp) plain
  · exact fun starts => starts.trans (List.prefix_append _ _)

/-- `strstr` on a line and zero bytes behind it. Where there are none, it leaves the buffer unless
it finds the text. -/
theorem strstr_linebuf (clean : 0 ∉ line) (needle : List UInt8) (plain : 0 ∉ needle)
    (notEmpty : needle ≠ []) (count : Nat) :
    strstr (line ++ List.replicate count 0) needle =
      if needle <:+: line then some true else if count = 0 then none else some false := by
  induction line with
  | nil =>
      have notFound : ¬ needle <:+: [] := fun found => notEmpty (List.infix_nil.mp found)
      rw [if_neg notFound]
      cases count with
      | zero => exact if_neg notEmpty
      | succ count =>
          have notHere : ¬ needle <+: ([] : List UInt8) ++ List.replicate (count + 1) 0 :=
            fun starts => notEmpty (List.prefix_nil.mp ((prefix_linebuf_iff [] plain _).mp starts))
          rw [List.nil_append, List.replicate_succ] at notHere ⊢
          unfold strstr
          rw [if_neg notHere, if_pos rfl, if_neg (Nat.succ_ne_zero count)]
  | cons char line inductionHypothesis =>
      rw [List.mem_cons, not_or] at clean
      have here := prefix_linebuf_iff (char :: line) plain count
      rw [List.cons_append] at here ⊢
      unfold strstr
      rw [if_neg (Ne.symm clean.1), inductionHypothesis clean.2]
      by_cases starts : needle <+: char :: line
      · rw [if_pos (here.mpr starts), if_pos (List.infix_cons_iff.mpr (.inl starts))]
      · rw [if_neg fun found => starts (here.mp found)]
        simp only [List.infix_cons_iff, starts, false_or]

/-- The buffer `readline` fills: the line and zero bytes, if it fits. -/
theorem readline_received (bytes rest : List UInt8) :
    readline (bytes ++ 0 :: rest) 0 (List.replicate linebufLength 0) =
      if (requestLine bytes).length ≤ linebufLength then
        some (requestLine bytes ++ List.replicate (linebufLength - (requestLine bytes).length) 0,
          (readlineLoop (bytes.takeWhile (· ≠ 0)) 0).2)
      else none := by
  unfold readline
  rw [cstring_terminated]
  simp only [Option.bind_eq_bind, Option.bind_some, List.drop_zero, List.length_replicate,
    List.drop_replicate]
  rfl

/-- What `http_request` makes of a buffer that `recv_cb` has filled. -/
theorem httpRequest_received {rest : List UInt8} (filled : ev.buffer = bytes ++ 0 :: rest) :
    httpRequest ev =
      if LineFits (requestLine bytes) then
        if HasGet (requestLine bytes) then
          if 32 ∈ (requestLine bytes).drop sizeofGet then
            some { ev with
              method := httpMethodGet
              resource := ascii "./html/" ++ uri (requestLine bytes) }
          else none
        else some ev
      else none := by
  have clean := requestLine_clean bytes
  unfold httpRequest
  rw [filled, readline_received]
  by_cases fits : (requestLine bytes).length ≤ linebufLength
  · have findsGet := strstr_linebuf clean (ascii "GET") (by decide) (by decide)
      (linebufLength - (requestLine bytes).length)
    have findsPost := strstr_linebuf clean (ascii "POST") (by decide) (by decide)
      (linebufLength - (requestLine bytes).length)
    rw [if_pos fits]
    simp only [Option.bind_eq_bind, Option.bind_some, findsGet, spaceFrom_linebuf]
    by_cases isGet : HasGet (requestLine bytes)
    · have found : ascii "GET" <:+: requestLine bytes := isGet
      have lineFits : LineFits (requestLine bytes) := ⟨fits, fun _ => isGet⟩
      rw [if_pos found, if_pos lineFits, if_pos isGet]
      simp only [Option.bind_some, if_true]
      by_cases space : 32 ∈ (requestLine bytes).drop sizeofGet
      · have short : (uri (requestLine bytes)).length ≤ (requestLine bytes).length := by
          have taken := (List.takeWhile_prefix (· ≠ 32) (l := (requestLine bytes).drop sizeofGet)).length_le
          rw [List.length_drop] at taken
          exact Nat.le_trans taken (Nat.sub_le _ _)
        simp only [space, if_true, Option.bind_some, cut_at_space clean space]
        have isRoot : (ascii "./html/").length = 7 := rfl
        rw [if_pos]
        rw [List.length_append, isRoot]
        unfold linebufLength at fits
        unfold bufferLength
        omega
      · simp only [space, if_false, Option.bind_none]
    · have notFound : ¬ ascii "GET" <:+: requestLine bytes := isGet
      rw [if_neg notFound]
      by_cases isFull : (requestLine bytes).length = linebufLength
      · have notFits : ¬ LineFits (requestLine bytes) := fun lineFits => isGet (lineFits.2 isFull)
        rw [if_pos (by omega), if_neg notFits]
        rfl
      · have lineFits : LineFits (requestLine bytes) := ⟨fits, fun full => absurd full isFull⟩
        rw [if_neg (by omega), if_pos lineFits, if_neg isGet]
        simp only [Option.bind_some, Bool.false_eq_true, if_false, findsPost]
        by_cases isPost : ascii "POST" <:+: requestLine bytes
        · rw [if_pos isPost]
          rfl
        · rw [if_neg isPost, if_neg (by omega)]
          rfl
  · have notFits : ¬ LineFits (requestLine bytes) := fun lineFits => fits lineFits.1
    rw [if_neg fits, if_neg notFits]
    rfl

/-! ### What a path says -/

/-- The code and the text for what a path names, if there is any. -/
def replyTo : Option File → Option (Int × String)
  | none => some (404, notFoundText)
  | some .directory => some (404, notFoundText)
  | some (.regular size) => some (200, okText size)
  | some .other => none

theorem replyTo_eq_none_iff {found : Option File} : replyTo found = none ↔ found = some .other := by
  cases found with
  | none => simp [replyTo]
  | some file => cases file <;> simp [replyTo]

private theorem length_ascii_append (one two : String) :
    (ascii (one ++ two)).length = (ascii one).length + (ascii two).length := by
  simp [ascii, String.toList_append]

theorem length_notFoundText : (ascii notFoundText).length = 210 := by
  unfold notFoundText
  simp only [length_ascii_append]
  simp [ascii]

theorem length_okText (size : UInt64) : (ascii (okText size)).length ≤ 200 := by
  have digits := (@Nat.length_toDigits_le_iff 10 size.toNat 20 (by decide) (by decide)).mpr
    (by have below := size.toNat_lt; omega)
  have short : (ascii (toString size.toNat)).length ≤ 20 := by
    simpa [ascii, toString, Nat.repr] using digits
  unfold okText
  simp only [length_ascii_append]
  simp [ascii] at short ⊢
  omega

theorem length_replyTo {found : Option File} {code : Int} {text : String}
    (replies : replyTo found = some (code, text)) : (ascii text).length ≤ bufferLength := by
  have notFound : (ascii notFoundText).length ≤ bufferLength := by
    rw [length_notFoundText, bufferLength]
    omega
  cases found with
  | none =>
      obtain ⟨-, rfl⟩ := Prod.mk.inj (Option.some.inj replies)
      exact notFound
  | some file =>
      cases file with
      | directory =>
          obtain ⟨-, rfl⟩ := Prod.mk.inj (Option.some.inj replies)
          exact notFound
      | regular size =>
          obtain ⟨-, rfl⟩ := Prod.mk.inj (Option.some.inj replies)
          have short := length_okText size
          unfold bufferLength
          omega
      | other => exact absurd replies (by simp [replyTo])

/-- Where there is a reply, it does not depend on the slot. -/
theorem httpResponse_of_reply {code : Int} {text : String}
    (replies : replyTo (files.lookup ev.resource) = some (code, text)) :
    (httpResponse ev files).1 =
      sprintf { ev with buffer := List.replicate bufferLength 0, retCode := code } text := by
  unfold httpResponse
  cases found : files.lookup ev.resource with
  | none =>
      rw [found] at replies
      obtain ⟨rfl, rfl⟩ := Prod.mk.inj (Option.some.inj replies)
      simp only [found]
  | some file =>
      rw [found] at replies
      cases file with
      | other => contradiction
      | directory =>
          obtain ⟨rfl, rfl⟩ := Prod.mk.inj (Option.some.inj replies)
          simp only [found]
      | regular size =>
          obtain ⟨rfl, rfl⟩ := Prod.mk.inj (Option.some.inj replies)
          simp only [found]

theorem httpResponse_other (isOther : files.lookup ev.resource = some .other) :
    (httpResponse ev files).1 = { ev with buffer := List.replicate bufferLength 0 } := by
  unfold httpResponse
  simp only [isOther]

theorem sendBytes_sprintf {text : String} (fits : (ascii text).length ≤ bufferLength) :
    sendBytes (sprintf ev text) = some (ascii text) := by
  have isLength : (sprintf ev text).length = (ascii text).length := rfl
  unfold sendBytes
  rw [if_pos (by omega), isLength, Int.toNat_natCast]
  unfold sprintf
  rw [List.take_left]

/-- Only the buffer, the length and the code change. -/
theorem httpResponse_frame (ev : Ntyevent) (files : FileSystem) :
    (httpResponse ev files).1.resource = ev.resource ∧ (httpResponse ev files).1.status = ev.status ∧
      (httpResponse ev files).1.retCode =
        ((replyTo (files.lookup ev.resource)).map Prod.fst).getD ev.retCode := by
  cases replies : replyTo (files.lookup ev.resource) with
  | none =>
      rw [httpResponse_other (replyTo_eq_none_iff.mp replies)]
      exact ⟨rfl, rfl, rfl⟩
  | some reply =>
      rw [httpResponse_of_reply replies]
      exact ⟨rfl, rfl, rfl⟩

/-- A slot whose length is within its buffer can always be sent. -/
theorem sendable (files : FileSystem) (inside : 0 ≤ ev.length ∧ ev.length ≤ bufferLength) :
    ∃ response, sendBytes (httpResponse ev files).1 = some response := by
  cases replies : replyTo (files.lookup ev.resource) with
  | none =>
      rw [httpResponse_other (replyTo_eq_none_iff.mp replies)]
      exact ⟨_, if_pos inside⟩
  | some reply =>
      rw [httpResponse_of_reply replies]
      exact ⟨_, sendBytes_sprintf (length_replyTo replies)⟩

/-! ### The response to a request -/

theorem receive_eq (received : bytes.length < bufferLength) :
    receive ev bytes = some { ev with
      length := bytes.length
      buffer := bytes ++ 0 :: ev.buffer.drop (bytes.length + 1) } := by
  unfold receive
  rw [if_pos received]

/-- An answerable request has the same outcome on every slot. -/
theorem Answerable.answer (answerable : Answerable files bytes) :
    ∃ same, ∀ ev, (answer files ev bytes).map outcome = some same := by
  cases replies : replyTo (files.lookup (ascii "./html/" ++ uri (requestLine bytes))) with
  | none => exact absurd (replyTo_eq_none_iff.mp replies) answerable.known
  | some reply =>
      obtain ⟨code, text⟩ := reply
      refine ⟨(ascii "./html/" ++ uri (requestLine bytes), code, (ascii text).length, ascii text), ?_⟩
      intro ev
      unfold WebServer.answer
      rw [receive_eq answerable.received]
      simp only [Option.bind_eq_bind, Option.bind_some]
      rw [httpRequest_received rfl, if_pos ⟨answerable.fits, fun _ => answerable.isGet⟩,
        if_pos answerable.isGet, if_pos answerable.space]
      simp only [Option.bind_some]
      rw [httpResponse_of_reply replies, sendBytes_sprintf (length_replyTo replies)]
      rfl

/-- The slot once `recv_cb` has put the bytes into the buffer. -/
def filled (ev : Ntyevent) (bytes : List UInt8) : Ntyevent :=
  { ev with length := bytes.length, buffer := bytes ++ 0 :: ev.buffer.drop (bytes.length + 1) }

/-- The resource and the code of an outcome. -/
theorem answer_of_request {request : Ntyevent} (received : bytes.length < bufferLength)
    (requested : httpRequest (filled ev bytes) = some request)
    {same : List UInt8 × Int × Int × List UInt8}
    (answers : (answer files ev bytes).map outcome = some same) :
    same.1 = request.resource ∧
      same.2.1 = ((replyTo (files.lookup request.resource)).map Prod.fst).getD request.retCode := by
  unfold answer at answers
  rw [receive_eq received] at answers
  simp only [Option.bind_eq_bind, Option.bind_some] at answers
  rw [← filled, requested] at answers
  simp only [Option.bind_some] at answers
  have responded := httpResponse_frame request files
  cases sends : sendBytes (httpResponse request files).1 with
  | none =>
      rw [sends] at answers
      contradiction
  | some response =>
      rw [sends] at answers
      obtain rfl := Option.some.inj answers
      exact ⟨responded.1, responded.2.2⟩

/-- A request with an outcome was read without leaving a buffer. -/
theorem request_of_answer {same : List UInt8 × Int × Int × List UInt8}
    (answers : (answer files ev bytes).map outcome = some same) :
    bytes.length < bufferLength ∧ (httpRequest (filled ev bytes)).isSome := by
  unfold answer receive at answers
  by_cases received : bytes.length < bufferLength
  · refine ⟨received, ?_⟩
    rw [if_pos received] at answers
    simp only [Option.bind_eq_bind, Option.bind_some] at answers
    rw [← filled] at answers
    cases requested : httpRequest (filled ev bytes) with
    | none =>
        rw [requested] at answers
        contradiction
    | some request => rfl
  · rw [if_neg received] at answers
    contradiction

/-- A slot right after its first `accept`. -/
def accepted (fd : Int) : Connection := ⟨acceptCb {} fd false, true⟩

theorem exec_accepted (fd : Int) (files : FileSystem) :
    (machine fd files).Exec [.accept false] (accepted fd) [] :=
  .step .start rfl

theorem accepted_awaits (fd : Int) : (accepted fd).Awaits .recvCb epollin := ⟨rfl, rfl, rfl, rfl⟩

theorem ntyEventDel_registered {slot : Slot} (isOne : slot.ev.status = 1)
    (registered : slot.registered = true) :
    (ntyEventDel slot).1 = ⟨{ slot.ev with status := 0 }, false⟩ := by
  simp [ntyEventDel, isOne, registered, epollCtl]

theorem ntyEventAdd_unregistered {slot : Slot} (isZero : slot.ev.status = 0)
    (unregistered : slot.registered = false) (events : Int) :
    (ntyEventAdd slot events false).1 = ⟨{ slot.ev with events := events, status := 1 }, true⟩ := by
  simp [ntyEventAdd, isZero, unregistered, epollCtl]

/-- One earlier request on the slot, and its response. -/
theorem exec_exchange (fd : Int) (files : FileSystem) {request : Ntyevent} (bytes : List UInt8)
    (nonEmpty : bytes.length > 0) (received : bytes.length < bufferLength)
    (requested : httpRequest (filled (accepted fd).slot.ev bytes) = some request)
    (isLength : request.length = bytes.length) (isOne : request.status = 1) :
    ∃ connection, (machine fd files).Exec [.accept false, .recv bytes false, .send true false] connection [] ∧
      connection.Awaits .recvCb epollin ∧ connection.slot.ev.resource = request.resource ∧
      connection.slot.ev.retCode =
        ((replyTo (files.lookup request.resource)).map Prod.fst).getD request.retCode := by
  let waiting : Ntyevent :=
    { request with status := 1, callback := some .sendCb, events := epollout }
  have receives : recvCb (accepted fd).slot bytes false = some ⟨waiting, true⟩ := by
    unfold recvCb
    rw [if_pos nonEmpty, receive_eq received]
    simp only [Option.bind_eq_bind, Option.bind_some]
    rw [← filled, requested]
    simp only [Option.bind_some]
    rw [ntyEventDel_registered isOne rfl, ntyEventAdd_unregistered rfl rfl]
    rfl
  have responded := httpResponse_frame waiting files
  obtain ⟨response, sends⟩ := @sendable waiting files (by
    show 0 ≤ request.length ∧ request.length ≤ bufferLength
    omega)
  let served : Ntyevent :=
    { (httpResponse waiting files).1 with status := 1, callback := some .recvCb, events := epollin }
  have responds : sendCb ⟨waiting, true⟩ files true false = some ⟨served, true⟩ := by
    unfold sendCb
    simp only [sends, Option.bind_eq_bind, Option.bind_some, if_true]
    rw [ntyEventDel_registered responded.2.1 rfl, ntyEventAdd_unregistered rfl rfl]
    rfl
  have afterAccept := exec_accepted fd files
  have afterRecv : (machine fd files).Exec [.accept false, .recv bytes false] ⟨⟨waiting, true⟩, true⟩ [] := by
    apply afterAccept.step
    show step fd files (accepted fd) (.recv bytes false) = some (⟨⟨waiting, true⟩, true⟩, [])
    simp only [step, if_pos (accepted_awaits fd), receives, Option.map_some, decide_eq_true nonEmpty]
  have awaits : Connection.Awaits ⟨⟨waiting, true⟩, true⟩ .sendCb epollout := ⟨rfl, rfl, rfl, rfl⟩
  have afterSend : (machine fd files).step ⟨⟨waiting, true⟩, true⟩ (.send true false) =
      some (⟨⟨served, true⟩, true⟩, []) := by
    show step fd files ⟨⟨waiting, true⟩, true⟩ (.send true false) = _
    simp only [step, if_pos awaits, responds, Option.map_some]
  exact ⟨⟨⟨served, true⟩, true⟩, afterRecv.step afterSend, ⟨rfl, rfl, rfl, rfl⟩, responded.1,
    responded.2.2⟩

/-- `GET /x`: after it the slot's resource is not the one it began with. -/
theorem exec_get (fd : Int) (files : FileSystem) :
    ∃ connection, (machine fd files).Exec
        [.accept false, .recv (ascii "GET /x ") false, .send true false] connection [] ∧
      connection.Awaits .recvCb epollin ∧ connection.slot.ev.resource ≠ [] := by
  obtain ⟨connection, exec, awaits, isResource, -⟩ := exec_exchange fd files (ascii "GET /x ")
    (by decide) (by decide)
    (by rw [httpRequest_received rfl, if_pos (by decide), if_pos (by decide), if_pos (by decide)])
    rfl rfl
  refine ⟨connection, exec, awaits, ?_⟩
  rw [isResource]
  exact List.cons_ne_nil _ _

/-- A request that is no GET leaves the empty path of a new slot, and that is a 404. -/
theorem exec_post (fd : Int) (files : FileSystem) :
    ∃ connection, (machine fd files).Exec
        [.accept false, .recv (ascii "POST") false, .send true false] connection [] ∧
      connection.Awaits .recvCb epollin ∧ connection.slot.ev.retCode = 404 := by
  obtain ⟨connection, exec, awaits, -, isCode⟩ := exec_exchange fd files (ascii "POST")
    (by decide) (by decide)
    (by rw [httpRequest_received rfl, if_pos (by decide), if_neg (by decide)]) rfl rfl
  refine ⟨connection, exec, awaits, ?_⟩
  rw [isCode]
  show ((replyTo (files.lookup [])).map Prod.fst).getD 0 = 404
  rw [files.noEmptyPath]
  rfl

/-- A request with a response of its own is read inside the buffers. -/
theorem OwnResponse.reads {fd : Int} (own : OwnResponse fd files bytes) :
    bytes.length < bufferLength ∧ LineFits (requestLine bytes) ∧
      (HasGet (requestLine bytes) → 32 ∈ (requestLine bytes).drop sizeofGet) := by
  have atFirst := exec_accepted fd files
  obtain ⟨same, answers, -⟩ := own _ _ _ _ _ _ atFirst atFirst (accepted_awaits fd) (accepted_awaits fd)
  obtain ⟨received, read⟩ := request_of_answer answers
  rw [httpRequest_received rfl] at read
  have fits : LineFits (requestLine bytes) := by
    by_contra long
    simp [long] at read
  refine ⟨received, fits, fun isGet => ?_⟩
  by_contra noSpace
  simp [fits, isGet, noSpace] at read

/-- Without a GET the resource is the one of an earlier request. -/
theorem OwnResponse.isGet {fd : Int} (own : OwnResponse fd files bytes) :
    HasGet (requestLine bytes) := by
  by_contra notGet
  obtain ⟨received, fits, -⟩ := own.reads
  obtain ⟨connection, exec, awaits, isResource⟩ := exec_get fd files
  obtain ⟨both, first, second⟩ :=
    own _ _ _ _ _ _ (exec_accepted fd files) exec (accepted_awaits fd) awaits
  have requested : ∀ ev, httpRequest (filled ev bytes) = some (filled ev bytes) := by
    intro ev
    rw [httpRequest_received rfl, if_pos fits, if_neg notGet]
  have kept : both.1 = [] := (answer_of_request received (requested _) first).1
  have changed := (answer_of_request received (requested _) second).1
  exact isResource (changed.symm.trans kept)

/-- For a path of another kind the code is the one of an earlier response. -/
theorem OwnResponse.known {fd : Int} (own : OwnResponse fd files bytes) :
    files.lookup (ascii "./html/" ++ uri (requestLine bytes)) ≠ some .other := by
  intro isOther
  obtain ⟨received, fits, spaced⟩ := own.reads
  obtain ⟨connection, exec, awaits, isCode⟩ := exec_post fd files
  obtain ⟨both, first, second⟩ :=
    own _ _ _ _ _ _ (exec_accepted fd files) exec (accepted_awaits fd) awaits
  have requested : ∀ ev, httpRequest (filled ev bytes) = some { filled ev bytes with
      method := httpMethodGet
      resource := ascii "./html/" ++ uri (requestLine bytes) } := by
    intro ev
    rw [httpRequest_received rfl, if_pos fits, if_pos own.isGet, if_pos (spaced own.isGet)]
  have kept : both.2.1 = 0 := by
    rw [(answer_of_request received (requested _) first).2, isOther]
    rfl
  have changed : both.2.1 = 404 := by
    rw [(answer_of_request received (requested _) second).2, isOther]
    exact isCode
  rw [kept] at changed
  exact absurd changed (by decide)

/-- The response to a request is its own exactly when the request is answerable. -/
theorem ownResponse_iff_answerable (fd : Int) (files : FileSystem) (bytes : List UInt8) :
    OwnResponse fd files bytes ↔ Answerable files bytes := by
  constructor
  · intro own
    obtain ⟨received, fits, spaced⟩ := own.reads
    exact ⟨received, fits.1, own.isGet, spaced own.isGet, own.known⟩
  · intro answerable one two first second seen other _ _ _ _
    obtain ⟨same, answers⟩ := answerable.answer
    exact ⟨same, answers _, answers _⟩

def noFiles : FileSystem := ⟨fun _ => none, rfl⟩

/-- A POST is answered with the resource of the request before it. -/
theorem post_not_ownResponse : ¬ OwnResponse 5 noFiles (ascii "POST / HTTP/1.1") :=
  fun own => absurd own.isGet (by decide)

end SimpleBasicComponents.WebServer
