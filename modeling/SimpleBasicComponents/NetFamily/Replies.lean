import SimpleBasicComponents.NetFamily.Addresses

/-!
The ARP reply for any text.

Owns: the reply as it should be, for any text of a hardware address: the bytes of
the text stand in front of what the two arrays held before. `echo_arp_pkt` returns
it exactly if the text has no more groups than an address has bytes.
-/

namespace SimpleBasicComponents.NetFamily

open SimpleBasicComponents.Semantics

/-- The bytes in front, the cells behind them. -/
def overlay {size : Nat} (cells : Vector UInt8 size) (bytes : List UInt8) : Vector UInt8 size :=
  Vector.ofFn fun index => bytes[index.val]?.getD cells[index]

/-- Who asked is told, by the one asked, what the bytes are. -/
def answer (arp : ArpPkt) (bytes : List UInt8) : ArpPkt where
  eh := { hDst := arp.eh.hSrc, hSrc := overlay arp.eh.hSrc bytes, hProto := arp.eh.hProto }
  arp := {
    hType := arp.arp.hType
    hProto := arp.arp.hProto
    hAddrlen := 6
    hProtolen := 4
    oper := htons 2
    smac := overlay arp.arp.smac bytes
    sip := arp.arp.dip
    dmac := arp.arp.smac
    dip := arp.arp.sip }

variable {size addr fuel : Nat} {text rest : List UInt8} {cells left : Vector UInt8 size}
  {bytes : List UInt8} {arp : ArpPkt}

theorem overlay_toList (room : bytes.length ≤ size) :
    (overlay cells bytes).toList = bytes ++ cells.toList.drop bytes.length := by
  apply List.ext_getElem
  · simp [room]
  · intro index below _
    have inside : index < size := by simpa using below
    simp only [overlay, Vector.getElem_toList, Vector.getElem_ofFn, List.getElem_append, List.getElem_drop]
    split
    · rename_i isByte
      rw [List.getElem?_eq_getElem isByte]
      rfl
    · rename_i beyond
      rw [List.getElem?_eq_none (Nat.not_lt.mp beyond)]
      simp [Nat.add_sub_of_le (Nat.not_lt.mp beyond)]

/-- What `str2mac` leaves in an array that has room. -/
theorem str2mac_overlay (nonNull : addr ≠ 0) (enough : text.length < fuel)
    (few : (addressPart text).count colon < 2 ^ 31) (room : (addressPart text).count colon < size)
    (cells : Vector UInt8 size) :
    ∃ reply, str2mac fuel ⟨cells, []⟩ ⟨addr, text ++ 0 :: rest⟩ = some reply ∧
      reply.mac.cells = overlay cells ((groups text).map byteOf) := by
  have total := length_map_byteOf text
  have ⟨filled, fills, good⟩ :=
    @fill_of_room size 0 ⟨cells, []⟩ ((groups text).map byteOf) (by omega)
  refine ⟨⟨0, addr + (addressPart text).length, filled⟩, ?_, ?_⟩
  · rw [str2mac_eq _ text rest nonNull enough, if_pos few, fills]
    rfl
  · apply Vector.toList_inj.mp
    rw [overlay_toList (by omega), good.cells, Nat.zero_add]
    rfl

/-- The reply has no room for more groups than an address has bytes. -/
theorem echoArpPkt_eq (nonNull : addr ≠ 0) (enough : text.length < fuel) :
    echoArpPkt fuel arp ⟨addr, text ++ 0 :: rest⟩ =
      if (addressPart text).count colon < ethAddrLength then
        some (answer arp ((groups text).map byteOf))
      else none := by
  split
  · rename_i room
    have few : (addressPart text).count colon < 2 ^ 31 := by
      unfold ethAddrLength at room
      omega
    have ⟨source, sourceReturns, isSource⟩ :=
      @str2mac_overlay _ addr fuel text rest nonNull enough few room arp.eh.hSrc
    have ⟨sender, senderReturns, isSender⟩ :=
      @str2mac_overlay _ addr fuel text rest nonNull enough few room arp.arp.smac
    unfold echoArpPkt
    simp only [sourceReturns, senderReturns, isSource, isSender, Option.bind_eq_bind, Option.bind_some]
    rfl
  · rename_i full
    rw [← Option.not_isSome_iff_eq_none, echoArpPkt_isSome_iff nonNull enough]
    exact full

/-- A request from `02:02:02:02:02:02`. -/
def request : ArpPkt where
  eh := { hDst := .replicate 6 255, hSrc := .replicate 6 2, hProto := htons 0x0806 }
  arp := {
    hType := htons 1
    hProto := htons 0x0800
    hAddrlen := 6
    hProtolen := 4
    oper := htons 1
    smac := .replicate 6 2
    sip := 0x0100000a
    dmac := .replicate 6 0
    dip := 0x0200000a }

/-- A text of two groups leaves four bytes of the request in the reply. -/
theorem request_answered :
    (echoArpPkt 5 request ⟨1, ascii "0a:5" ++ 0 :: []⟩).map (fun reply => reply.eh.hSrc.toList) =
      some [10, 5, 2, 2, 2, 2] := by
  rw [echoArpPkt_eq (by decide) (by decide)]
  decide +kernel

end SimpleBasicComponents.NetFamily
