import Mathlib.Data.List.Infix
import SimpleBasicComponents.Semantics.CString
import SimpleBasicComponents.Semantics.Machine

/-!
The connection slots of `src/webserver.c`.

Owns: `nty_event_set`, `nty_event_add`, `nty_event_del`, `readline`,
`http_request`, `http_response` and the callbacks `recv_cb`, `send_cb`,
`accept_cb` on one slot, as the source computes them, with the kernel's side of
the slot: whether its descriptor is open and whether it is in the interest set.
What the kernel answers is an argument. A byte outside an array is a fault.

The `arg` and `last_active` of a slot are never read again and are left out, and
so is what `printf` shows.
-/

namespace SimpleBasicComponents.WebServer

open SimpleBasicComponents.Semantics

def bufferLength : Nat := 4096
def linebufLength : Nat := 1024

def epollin : Int := 1
def epollout : Int := 4
def httpMethodGet : Int := 0

inductive Callback where
  | recvCb
  | sendCb
deriving DecidableEq, Repr

/-- `resource` holds the string in the array. A new slot is zeroed. -/
structure Ntyevent where
  fd : Int := 0
  events : Int := 0
  callback : Option Callback := none
  status : Int := 0
  buffer : List UInt8 := List.replicate bufferLength 0
  length : Int := 0
  method : Int := 0
  resource : List UInt8 := []
  retCode : Int := 0
deriving DecidableEq, Repr

/-! ### The event registry -/

/-- A slot and the kernel's interest set, as far as the slot's descriptor goes. -/
structure Slot where
  ev : Ntyevent := {}
  registered : Bool := false
deriving DecidableEq, Repr

inductive Op where
  | add
  | mod
  | del
deriving DecidableEq, Repr

/-- `epoll_ctl` on an open descriptor. `fails` is whether an ADD or MOD fails for
some reason of the kernel's own. -/
def epollCtl (registered : Bool) (op : Op) (fails : Bool) : Bool × Int :=
  match op with
  | .add => if registered || fails then (registered, -1) else (true, 0)
  | .mod => if !registered || fails then (registered, -1) else (registered, 0)
  | .del => if registered then (false, 0) else (registered, -1)

def ntyEventSet (slot : Slot) (fd : Int) (callback : Callback) : Slot :=
  { slot with ev := { slot.ev with fd := fd, callback := some callback, events := 0 } }

/-- The slot and the return value. -/
def ntyEventAdd (slot : Slot) (events : Int) (fails : Bool) : Slot × Int :=
  let ev := { slot.ev with events := events }
  let (ev, op) := if ev.status = 1 then (ev, Op.mod) else ({ ev with status := 1 }, Op.add)
  let (registered, result) := epollCtl slot.registered op fails
  (⟨ev, registered⟩, if result < 0 then -1 else 0)

def ntyEventDel (slot : Slot) : Slot × Int :=
  if slot.ev.status ≠ 1 then (slot, -1)
  else
    let ev := { slot.ev with status := 0 }
    let (registered, _) := epollCtl slot.registered .del false
    (⟨ev, registered⟩, 0)

/-! ### Requests -/

/-- The loop of `readline` on the characters from `idx` on: what it puts into
`linebuf`, and the return value. -/
def readlineLoop : List UInt8 → Nat → List UInt8 × Int
  | [], _ => ([], -1)
  | char :: rest, idx =>
      -- Behind the last character is the zero byte, which is no '\n'.
      if char = 13 && rest.head? = some 10 then ([], idx + 2)
      else ((char :: (readlineLoop rest (idx + 1)).1), (readlineLoop rest (idx + 1)).2)

/-- The line buffer and the return value. -/
def readline (allbuf : List UInt8) (idx : Nat) (linebuf : List UInt8) :
    Option (List UInt8 × Int) := do
  let text ← cstring allbuf
  let (line, result) := readlineLoop (text.drop idx) idx
  if line.length ≤ linebuf.length then some (line ++ linebuf.drop line.length, result) else none

/-- `strstr` reads on until it has found the text or the zero byte. There is no result where the
memory ends before that. -/
def strstr : List UInt8 → List UInt8 → Option Bool
  | [], needle => if needle = [] then some true else none
  | char :: rest, needle =>
      if needle <+: char :: rest then some true
      else if char = 0 then some false
      else strstr rest needle

/-- `while (linebuf[sizeof("GET ") + i] != ' ') i++`. -/
def spaceFrom : List UInt8 → Option Nat
  | [] => none
  | char :: rest => if char ≠ 32 then (spaceFrom rest).map (· + 1) else some 0

/-- `sizeof("GET ")` counts the zero byte. -/
def sizeofGet : Nat := 5

/-- The return value is never set. -/
def httpRequest (ev : Ntyevent) : Option Ntyevent := do
  let (linebuf, _) ← readline ev.buffer 0 (List.replicate linebufLength 0)
  if ← strstr linebuf (ascii "GET") then do
    let ev := { ev with method := httpMethodGet }
    let i ← spaceFrom (linebuf.drop sizeofGet)
    let linebuf := linebuf.set (sizeofGet + i) 0
    let uri ← cstring (linebuf.drop sizeofGet)
    let resource := ascii "./html/" ++ uri
    if resource.length + 1 ≤ bufferLength then some { ev with resource := resource } else none
  else do
    -- There is nothing in the branch of a POST.
    let _ ← strstr linebuf (ascii "POST")
    some ev

/-! ### Responses -/

inductive File where
  | directory
  | regular (size : UInt64)
  | other
deriving DecidableEq, Repr

/-- What `open` and `fstat` find under a path. The empty path names no file. -/
structure FileSystem where
  lookup : List UInt8 → Option File
  noEmptyPath : lookup [] = none

def notFoundText : String :=
  "HTTP/1.1 404 Not Found\r\n" ++
  "Date: Thu, 11 Nov 2021 12:28:52 GMT\r\n" ++
  "Content-Type: text/html;charset=ISO-8859-1\r\n" ++
  "Content-Length: 85\r\n\r\n" ++
  "<html><head><title>404 Not Found</title></head><body><H1>404</H1></body></html>\r\n\r\n"

def okText (size : UInt64) : String :=
  "HTTP/1.1 200 OK\r\n" ++
  "Date: Thu, 11 Nov 2021 12:28:52 GMT\r\n" ++
  "Content-Type: text/html;charset=ISO-8859-1\r\n" ++
  "Content-Length: " ++ toString size.toNat ++ "\r\n\r\n"

/-- `sprintf` into the zeroed buffer, which is long enough for either text. -/
def sprintf (ev : Ntyevent) (text : String) : Ntyevent :=
  { ev with
    buffer := ascii text ++ ev.buffer.drop (ascii text).length
    length := (ascii text).length }

/-- The slot and the return value. -/
def httpResponse (ev : Ntyevent) (files : FileSystem) : Ntyevent × Int :=
  let ev := { ev with buffer := List.replicate bufferLength 0 }
  let ev :=
    match files.lookup ev.resource with
    | none => sprintf { ev with retCode := 404 } notFoundText
    | some .directory => sprintf { ev with retCode := 404 } notFoundText
    | some (.regular size) => sprintf { ev with retCode := 200 } (okText size)
    | some .other => ev
  (ev, ev.length)

/-! ### Callbacks -/

/-- The bytes `send` is given. -/
def sendBytes (ev : Ntyevent) : Option (List UInt8) :=
  if 0 ≤ ev.length ∧ ev.length ≤ bufferLength then some (ev.buffer.take ev.length.toNat) else none

/-- `recv` and the zero byte put behind what it delivered. -/
def receive (ev : Ntyevent) (bytes : List UInt8) : Option Ntyevent :=
  if bytes.length < bufferLength then
    some { ev with
      length := bytes.length
      buffer := bytes ++ 0 :: ev.buffer.drop (bytes.length + 1) }
  else none

/-- No bytes stand for a closed connection and for an error. `fails` is about
the `epoll_ctl` of `nty_event_add`. -/
def recvCb (slot : Slot) (bytes : List UInt8) (fails : Bool) : Option Slot :=
  if bytes.length > 0 then do
    let ev ← receive slot.ev bytes
    let ev ← httpRequest ev
    let (slot, _) := ntyEventDel { slot with ev := ev }
    some (ntyEventAdd (ntyEventSet slot slot.ev.fd .sendCb) epollout fails).1
  else
    -- `close` drops the descriptor from the interest set.
    some { (ntyEventDel slot).1 with registered := false }

/-- `sent` is whether `send` delivers anything. -/
def sendCb (slot : Slot) (files : FileSystem) (sent fails : Bool) : Option Slot := do
  let (ev, _) := httpResponse slot.ev files
  let _ ← sendBytes ev
  let slot := { slot with ev := ev }
  if sent then
    let (slot, _) := ntyEventDel slot
    some (ntyEventAdd (ntyEventSet slot slot.ev.fd .recvCb) epollin fails).1
  else
    some (ntyEventDel { slot with registered := false }).1

/-- The part of `accept_cb` after a descriptor was accepted and set up. -/
def acceptCb (slot : Slot) (clientfd : Int) (fails : Bool) : Slot :=
  (ntyEventAdd (ntyEventSet slot clientfd .recvCb) epollin fails).1

end SimpleBasicComponents.WebServer
