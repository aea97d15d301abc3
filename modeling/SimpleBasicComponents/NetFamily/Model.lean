import SimpleBasicComponents.Semantics.Loop
import Mathlib.Algebra.Group.Nat.Defs

/-!
The ARP reply of `src/src/net_family.c`.

Owns: the Ethernet and ARP headers, and `str2mac` and `echo_arp_pkt` as the
source computes them.

The loop of `str2mac` compares the pointer `p`, not the character it points to,
with `'\0'`; pointers into the string are therefore addresses here. Reading
outside the memory of the string, writing outside the array at `mac` and counting
`i` beyond an `int` are faults. The other protocols, and the calls of netmap in
`main`, are left out.
-/

namespace SimpleBasicComponents.NetFamily

open SimpleBasicComponents.Semantics

/-- A character constant of the source. -/
def character (constant : Char) : UInt8 := UInt8.ofNat constant.toNat

/-! ### Memory -/

/-- The bytes from an address on. -/
structure Text where
  addr : Nat
  bytes : List UInt8
deriving DecidableEq, Repr

/-- `*p`. -/
def Text.load (str : Text) (p : Nat) : Option UInt8 :=
  if str.addr ≤ p then str.bytes[p - str.addr]? else none

/-- The array at `mac`, and what has been stored in it, and where. -/
structure Output (size : Nat) where
  cells : Vector UInt8 size
  stores : List (Nat × UInt8)
deriving DecidableEq, Repr

/-- `mac[i] = value`. -/
def Output.store {size : Nat} (mac : Output size) (i : Nat) (value : UInt8) : Option (Output size) :=
  if inside : i < size then
    some { cells := mac.cells.set i value inside, stores := mac.stores ++ [(i, value)] }
  else none

/-- `i++`. -/
def increment (i : Nat) : Option Nat :=
  if i + 1 < 2 ^ 31 then some (i + 1) else none

/-! ### Text to bytes -/

/-- `temp` behind the tests, which leave the loop if it is `none`. -/
def digit (char : UInt8) : Option UInt8 :=
  let temp := char
  if temp ≤ character '9' ∧ temp ≥ character '0' then some (temp - character '0')
  else if temp ≤ character 'f' ∧ temp ≥ character 'a' then some (temp - character 'a' + 10)
  else if temp ≤ character 'F' ∧ temp ≥ character 'A' then some (temp - character 'A' + 10)
  else none

structure Locals (size : Nat) where
  p : Nat
  value : UInt8
  i : Nat
  mac : Output size

def turn {size : Nat} (str : Text) (locals : Locals size) : Turn (Locals size) (Locals size) :=
  if locals.p ≠ 0 then
    match str.load locals.p with
    | none => .fault
    | some char =>
        if char = character ':' then
          match locals.mac.store locals.i locals.value, increment locals.i with
          | some mac, some i => .again { p := locals.p + 1, value := 0, i := i, mac := mac }
          | _, _ => .fault
        else
          match digit char with
          | none => .leave locals
          | some temp =>
              .again { locals with p := locals.p + 1, value := locals.value <<< 4 ||| temp }
  else .leave locals

/-- What `str2mac` returns and leaves, with the `p` at which it stopped. -/
structure Reply (size : Nat) where
  returned : Int
  p : Nat
  mac : Output size
deriving DecidableEq, Repr

/-- From `mac[i] = value` behind the loop on. -/
def finish {size : Nat} (locals : Locals size) : Option (Reply size) := do
  let mac ← locals.mac.store locals.i locals.value
  return { returned := 0, p := locals.p, mac := mac }

def str2mac {size : Nat} (fuel : Nat) (mac : Output size) (str : Text) : Option (Reply size) := do
  let locals ← loop (turn str) fuel { p := str.addr, value := 0, i := 0, mac := mac }
  finish locals

/-! ### Packets -/

def ethAddrLength : Nat := 6

abbrev EthAddr := Vector UInt8 ethAddrLength

structure EthHdr where
  hDst : EthAddr
  hSrc : EthAddr
  hProto : UInt16
deriving DecidableEq, Repr

structure ArpHdr where
  hType : UInt16
  hProto : UInt16
  hAddrlen : UInt8
  hProtolen : UInt8
  oper : UInt16
  smac : EthAddr
  sip : UInt32
  dmac : EthAddr
  dip : UInt32
deriving DecidableEq, Repr

structure ArpPkt where
  eh : EthHdr
  arp : ArpHdr
deriving DecidableEq, Repr

/-- The bytes change places, as the host is little-endian. -/
def htons (hostshort : UInt16) : UInt16 := hostshort <<< 8 ||| hostshort >>> 8

/-- The packet at `arp_rt`. -/
def echoArpPkt (fuel : Nat) (arp : ArpPkt) (mac : Text) : Option ArpPkt := do
  let reply := arp
  let reply := { reply with eh.hDst := arp.eh.hSrc }
  let source ← str2mac fuel ⟨reply.eh.hSrc, []⟩ mac
  let reply := { reply with eh.hSrc := source.mac.cells }
  let reply := { reply with eh.hProto := arp.eh.hProto }
  let reply := { reply with arp.hAddrlen := 6 }
  let reply := { reply with arp.hProtolen := 4 }
  let reply := { reply with arp.oper := htons 2 }
  let sender ← str2mac fuel ⟨reply.arp.smac, []⟩ mac
  let reply := { reply with arp.smac := sender.mac.cells }
  let reply := { reply with arp.sip := arp.arp.dip }
  let reply := { reply with arp.dmac := arp.arp.smac }
  return { reply with arp.dip := arp.arp.sip }

end SimpleBasicComponents.NetFamily
