import SimpleBasicComponents.Semantics.Bytes
import SimpleBasicComponents.Semantics.CString
import Mathlib.Data.Int.ModEq

/-!
The DNS client of `src/pool/asyn_dns_client.c`.

Owns: the header and the question of a request, and `dns_create_header`,
`dns_create_question`, `dns_build_request`, `dns_parse_name` and
`dns_parse_response` as the source computes them.

Pointers are offsets into the memory they point to; reading or writing outside
it, and a sum that does not fit an `int`, are faults. The loops and recursive
calls that need not end take a number of steps. The memory of a name and of a
request starts uninitialized, as `none`. Allocation of the list of a response
succeeds; what is printed is left out.
-/

namespace SimpleBasicComponents.DnsClient

open SimpleBasicComponents.Semantics

/-- The value a `size_t` has after its conversion to `int`, which wraps around. -/
def toInt (size : Int) : Int := Int.bmod size (2 ^ 32)

/-- The sum of two `int`s that are not negative. -/
def addInt (left right : Nat) : Run Nat :=
  if left + right < 2 ^ 31 then .ok (left + right) else .error .fault

/-- An `unsigned short` as it is stored. -/
structure Stored where
  first : UInt8
  second : UInt8
deriving DecidableEq, Repr

def Stored.bytes (stored : Stored) : List UInt8 := [stored.first, stored.second]

/-- `htons` of a value, as it is stored. -/
def htons (value : Nat) : Stored := ⟨UInt8.ofNat (value / 256), UInt8.ofNat value⟩

structure DnsHeader where
  id : Stored
  flags : Stored
  qdcount : Stored
  ancount : Stored
  nscount : Stored
  arcount : Stored
deriving DecidableEq, Repr

/-- The object representation of `struct dns_header`. -/
def DnsHeader.bytes (header : DnsHeader) : List UInt8 :=
  header.id.bytes ++ header.flags.bytes ++ header.qdcount.bytes ++ header.ancount.bytes ++
    header.nscount.bytes ++ header.arcount.bytes

/-- `id` is what `random()` gives. -/
def dnsCreateHeader (id : Stored) : DnsHeader :=
  { id := id, flags := htons 0x0100, qdcount := htons 1, ancount := ⟨0, 0⟩, nscount := ⟨0, 0⟩,
    arcount := ⟨0, 0⟩ }

structure DnsQuestion where
  length : Int
  qtype : Stored
  qclass : Stored
  qname : List (Option UInt8)
deriving DecidableEq, Repr

/-! ### Requests -/

/-- `"."`. -/
def dot : UInt8 := 46

/-- `strtok` with the delimiter `"."`: the token, and what is left for the next call. -/
def strtok (text : List UInt8) : Option (List UInt8 × List UInt8) :=
  match text.dropWhile (· = dot) with
  | [] => none
  | start => some (start.takeWhile (· ≠ dot), (start.dropWhile (· ≠ dot)).drop 1)

/-- The loop of `dns_create_question`. -/
def writeLabels : Nat → List UInt8 → Nat → List (Option UInt8) → Run (List (Option UInt8))
  | 0, _, _, _ => .error .unfinished
  | steps + 1, text, qnameP, qname =>
      match strtok text with
      | none => .ok qname
      | some (token, text) => do
          let qname ← writeCells qname qnameP [some (UInt8.ofNat token.length)]
          let qname ← writeCells qname (qnameP + 1) ((token ++ [0]).map some)
          writeLabels steps text (qnameP + 1 + token.length) qname

/-- The result and the question; `hostname` are the bytes of the string, and
`allocates` says whether `malloc` gives the memory for `qname`. -/
def dnsCreateQuestion (allocates : Bool) (hostname : List UInt8) : Run (Int × DnsQuestion) :=
  if allocates then do
    let memory := List.replicate (hostname.length + 2) none
    let qname ← writeLabels (hostname.length + 1) hostname 0 memory
    .ok (0, { length := toInt (hostname.length + 2 : Nat), qtype := htons 1, qclass := htons 1,
              qname := qname })
  else .ok (-2, { length := 0, qtype := ⟨0, 0⟩, qclass := ⟨0, 0⟩, qname := [] })

/-- The result and the memory of `request`. A negative length is no size to copy. -/
def dnsBuildRequest (header : DnsHeader) (question : DnsQuestion)
    (request : List (Option UInt8)) : Run (Int × List (Option UInt8)) := do
  let headerS : Int := 12
  let questionS := toInt (question.length + 2 + 2)
  let length := questionS + headerS
  if length < 2 ^ 31 then
    let request ← writeCells request 0 (header.bytes.map some)
    if question.length < 0 then .error .fault
    else
      let size := question.length.toNat
      let qname ← readCells question.qname 0 size
      let request ← writeCells request 12 qname
      let request ← writeCells request (12 + size) (question.qtype.bytes.map some)
      let request ← writeCells request (12 + size + 2) (question.qclass.bytes.map some)
      .ok (length, request)
  else .error .fault

/-! ### Names -/

def isPointer (flag : Nat) : Bool := flag &&& 0xC0 = 0xC0

/-- The loop of `dns_parse_name` at `ptr`, with `pos` the offset in `out`. The call
for a pointer is followed by the end of the loop. -/
def dnsParseName (chunk : List UInt8) :
    Nat → (ptr pos : Nat) → (out : List UInt8) → (len : Nat) → Run (List UInt8 × Nat)
  | 0, _, _, _, _ => .error .unfinished
  | steps + 1, ptr, pos, out, len => do
      let flag ← readCell chunk ptr
      if flag = 0 then .ok (out, len)
      else if isPointer flag.toNat then
        let n ← readCell chunk (ptr + 1)
        dnsParseName chunk steps n.toNat len out len
      else
        let label ← readCells chunk (ptr + 1) flag.toNat
        let out ← writeCells out pos label
        let len ← addInt len flag.toNat
        let ahead ← readCell chunk (ptr + 1 + flag.toNat)
        if ahead ≠ 0 then
          let out ← writeCells out (pos + flag.toNat) [dot]
          let len ← addInt len 1
          dnsParseName chunk steps (ptr + 1 + flag.toNat) (pos + flag.toNat + 1) out len
        else dnsParseName chunk steps (ptr + 1 + flag.toNat) (pos + flag.toNat) out len

/-! ### Responses -/

/-- `ntohs` or `htons` of the two bytes at the offset. -/
def readShort (buffer : List UInt8) (ptr : Nat) : Run Nat := do
  let high ← readCell buffer ptr
  let low ← readCell buffer (ptr + 1)
  .ok (high.toNat * 256 + low.toNat)

/-- The inner loop over a question: where its name ends. -/
def skipName (buffer : List UInt8) : Nat → Nat → Run Nat
  | 0, _ => .error .unfinished
  | steps + 1, ptr => do
      let flag ← readCell buffer ptr
      if flag = 0 then .ok (ptr + (flag.toNat + 1))
      else skipName buffer steps (ptr + (flag.toNat + 1))

/-- The loop over the questions, with `querys` of them to come. -/
def skipQuestions (buffer : List UInt8) (steps : Nat) : Nat → Nat → Run Nat
  | 0, ptr => .ok ptr
  | querys + 1, ptr => do
      let ptr ← skipName buffer steps ptr
      skipQuestions buffer steps querys (ptr + 4)

structure DnsItem where
  domain : List UInt8
  ip : String
deriving DecidableEq, Repr

/-- `inet_ntop` of an IPv4 address. -/
def inetNtop : List UInt8 → String
  | [first, second, third, fourth] =>
      toString first.toNat ++ "." ++ toString second.toNat ++ "." ++ toString third.toNat ++ "." ++
        toString fourth.toNat
  | _ => ""

/-- A string in memory; without a zero byte it runs out of the memory. -/
def readString (memory : List UInt8) : Run (List UInt8) :=
  match cstring memory with
  | some text => .ok text
  | none => .error .fault

/-- `DNS_HOST`. -/
def dnsHost : Nat := 0x01

/-- `DNS_CNAME`. -/
def dnsCname : Nat := 0x05

/-- One turn of the loop over the answers: where the next one is looked for, and
the list. -/
def parseAnswer (buffer : List UInt8) (steps ptr : Nat) (list : List DnsItem) :
    Run (Nat × List DnsItem) := do
  let (aname, _) ← dnsParseName buffer steps ptr 0 (List.replicate 128 0) 0
  let type ← readShort buffer (ptr + 2)
  let _ttl ← readShort buffer (ptr + 2 + 4)
  let datalen ← readShort buffer (ptr + 2 + 4 + 4)
  let ptr := ptr + 2 + 4 + 4 + 2
  if type = dnsCname then
    let _ ← dnsParseName buffer steps ptr 0 (List.replicate 128 0) 0
    .ok (ptr + datalen, list)
  else if type = dnsHost then
    if datalen = 4 then
      let netip ← readCells buffer ptr datalen
      let domain ← readString aname
      .ok (ptr + datalen, list ++ [⟨domain, inetNtop netip⟩])
    else .ok (ptr + datalen, list)
  else .ok (ptr, list)

/-- The loop over the answers, with `answers` of them to come. -/
def parseAnswers (buffer : List UInt8) (steps : Nat) :
    Nat → Nat → List DnsItem → Run (List DnsItem)
  | 0, _, list => .ok list
  | answers + 1, ptr, list => do
      let (ptr, list) ← parseAnswer buffer steps ptr list
      parseAnswers buffer steps answers ptr list

/-- The result and the list, of which the result says how much is filled. -/
def dnsParseResponse (steps : Nat) (buffer : List UInt8) : Run (Nat × List DnsItem) := do
  let querys ← readShort buffer 4
  let answers ← readShort buffer (4 + 2)
  let ptr ← skipQuestions buffer steps querys (4 + 2 + 6)
  let list ← parseAnswers buffer steps answers ptr []
  .ok (list.length, list)

end SimpleBasicComponents.DnsClient
