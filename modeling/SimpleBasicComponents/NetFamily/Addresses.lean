import SimpleBasicComponents.NetFamily.Model
import SimpleBasicComponents.Semantics.HexNumerals
import Mathlib.Data.Vector.Basic

/-!
What `str2mac` makes of a string.

Owns: the part of a string up to the first character that is neither a digit nor
a colon, cut at its colons into groups; the proof that `str2mac` stores what the
groups are worth, in order, and the exact condition under which it returns; and
the address that `echo_arp_pkt` answers with.
-/

namespace SimpleBasicComponents.NetFamily

open SimpleBasicComponents.Semantics

/-! ### Groups -/

def colon : UInt8 := character ':'

/-- A digit or a colon. -/
def belongs (char : UInt8) : Bool := char == colon || (digitValue char).isSome

/-- The string up to the first character that is neither a digit nor a colon. -/
def addressPart (text : List UInt8) : List UInt8 := text.takeWhile belongs

def groups (text : List UInt8) : List (List UInt8) := (addressPart text).splitOn colon

/-- What a group is worth, modulo 256. -/
def byteOf (group : List UInt8) : UInt8 := UInt8.ofNat (numeralValue group)

theorem digitValue_colon : digitValue colon = none := by decide

/-- The tests of the source find the digits, and `temp` is what a digit is worth. -/
theorem digit_eq : ∀ char, digit char = (digitValue char).map UInt8.ofNat :=
  forall_byte (by decide +kernel)

theorem length_splitOn (text : List UInt8) : (text.splitOn colon).length = text.count colon + 1 := by
  induction text with
  | nil => rfl
  | cons char text inductionHypothesis =>
      rw [List.splitOn_cons_eq_if_modifyHead, List.count_cons]
      split <;> simp [inductionHypothesis]

/-- Behind the part there is a character that does not belong to it. -/
theorem addressPart_split (text rest : List UInt8) :
    ∃ stop behind, text ++ 0 :: rest = addressPart text ++ stop :: behind ∧ belongs stop = false := by
  unfold addressPart
  induction text with
  | nil => exact ⟨0, rest, rfl, by decide⟩
  | cons char text inductionHypothesis =>
      by_cases belong : belongs char
      · have ⟨stop, behind, split, ends⟩ := inductionHypothesis
        rw [List.takeWhile_cons_of_pos belong, List.cons_append, split]
        exact ⟨stop, behind, rfl, ends⟩
      · rw [List.takeWhile_cons_of_neg belong]
        exact ⟨char, text ++ 0 :: rest, rfl, Bool.eq_false_iff.mpr belong⟩

theorem length_addressPart_le (text : List UInt8) : (addressPart text).length ≤ text.length :=
  (List.takeWhile_prefix belongs).length_le

/-! ### Stores -/

section

variable {size i : Nat} {mac filled : Output size} {values : List UInt8}

/-- Storing values one behind the other. -/
def Output.fill (mac : Output size) (i : Nat) : List UInt8 → Option (Output size)
  | [] => some mac
  | value :: values => do (← mac.store i value).fill (i + 1) values

/-- What has been stored, and what that leaves in the array. -/
structure Filled (mac : Output size) (i : Nat) (values : List UInt8) (filled : Output size) :
    Prop where
  stores : filled.stores = mac.stores ++ (values.zipIdx i).map Prod.swap
  cells : filled.cells.toList =
    mac.cells.toList.take i ++ values ++ mac.cells.toList.drop (i + values.length)

theorem fill_of_room (room : i + values.length ≤ size) :
    ∃ filled, mac.fill i values = some filled ∧ Filled mac i values filled := by
  induction values generalizing mac i with
  | nil => exact ⟨mac, rfl, by simp, by simp⟩
  | cons value values inductionHypothesis =>
      rw [List.length_cons] at room
      have inside : i < size := by omega
      have stored : mac.store i value =
          some ⟨mac.cells.set i value inside, mac.stores ++ [(i, value)]⟩ := dif_pos inside
      obtain ⟨filled, fills, good⟩ := @inductionHypothesis (i + 1)
        ⟨mac.cells.set i value inside, mac.stores ++ [(i, value)]⟩ (by omega)
      refine ⟨filled, ?_, ?_, ?_⟩
      · unfold Output.fill
        rw [stored]
        exact fills
      · rw [good.stores, List.append_assoc]
        rfl
      · have bound : i < mac.cells.toList.length := by simpa using inside
        have front : (mac.cells.toList.set i value).take (i + 1) =
            mac.cells.toList.take i ++ [value] := by
          rw [List.take_add_one, List.take_set_of_le (Nat.le_refl i), List.getElem?_set_self bound]
          rfl
        have back : (mac.cells.toList.set i value).drop (i + 1 + values.length) =
            mac.cells.toList.drop (i + (values.length + 1)) := by
          rw [List.drop_set_of_lt (by omega), Nat.add_right_comm, Nat.add_assoc]
        rw [good.cells, List.length_cons]
        show (mac.cells.set i value inside).toList.take (i + 1) ++ _ ++
          (mac.cells.set i value inside).toList.drop _ = _
        rw [Vector.toList_set, front, back]
        simp

theorem fill_eq_none (full : size < i + values.length) (valid : i ≤ size) :
    mac.fill i values = none := by
  induction values generalizing mac i with
  | nil => exact absurd full (Nat.not_lt.mpr valid)
  | cons value values inductionHypothesis =>
      rw [List.length_cons] at full
      unfold Output.fill Output.store
      split
      · exact inductionHypothesis (by omega) (by omega)
      · rfl

end

/-! ### The loop -/

section

variable {size fuel : Nat} {str : Text} {char : UInt8} {front cur behind : List UInt8}
  {locals : Locals size}

/-- The bytes from `p` on. -/
structure Ahead (str : Text) (p : Nat) (bytes : List UInt8) : Prop where
  nonNull : p ≠ 0
  inside : str.addr ≤ p
  bytes : str.bytes.drop (p - str.addr) = bytes

theorem Ahead.load {p : Nat} (ahead : Ahead str p (char :: behind)) : str.load p = some char := by
  unfold Text.load
  rw [if_pos ahead.inside, ← List.head?_drop, ahead.bytes]
  rfl

theorem Ahead.next {p : Nat} (ahead : Ahead str p (char :: behind)) : Ahead str (p + 1) behind := by
  have inside := ahead.inside
  refine ⟨Nat.succ_ne_zero p, Nat.le_succ_of_le inside, ?_⟩
  rw [Nat.sub_add_comm inside, ← List.drop_drop, ahead.bytes]
  rfl

/-- A turn that ends a group. -/
theorem loop_colon (ahead : Ahead str locals.p (colon :: behind)) :
    loop (turn str) (fuel + 1) locals = (locals.mac.store locals.i locals.value).bind fun mac =>
      if locals.i + 1 < 2 ^ 31 then
        loop (turn str) fuel { p := locals.p + 1, value := 0, i := locals.i + 1, mac := mac }
      else none := by
  have turns : turn str locals =
      .orFault ((locals.mac.store locals.i locals.value).bind fun mac =>
        (increment locals.i).map fun i =>
          .again { p := locals.p + 1, value := 0, i := i, mac := mac }) := by
    unfold turn
    rw [if_pos ahead.nonNull, ahead.load]
    apply (if_pos rfl).trans
    cases locals.mac.store locals.i locals.value <;> cases increment locals.i <;> rfl
  cases stored : locals.mac.store locals.i locals.value with
  | none =>
      rw [stored] at turns
      exact loop_fault turns
  | some mac =>
      rw [stored] at turns
      unfold increment at turns
      rw [Option.bind_some]
      by_cases fits : locals.i + 1 < 2 ^ 31
      · rw [if_pos fits] at turns ⊢
        exact loop_again turns
      · rw [if_neg fits] at turns ⊢
        exact loop_fault turns

theorem loop_digit {worth : Nat} (ahead : Ahead str locals.p (char :: behind)) (other : char ≠ colon)
    (isDigit : digitValue char = some worth) :
    loop (turn str) (fuel + 1) locals = loop (turn str) fuel
      { locals with p := locals.p + 1, value := locals.value <<< 4 ||| UInt8.ofNat worth } := by
  apply loop_again
  unfold turn
  rw [if_pos ahead.nonNull, ahead.load]
  simp only [digit_eq, isDigit, Option.map_some]
  exact if_neg other

theorem loop_stop (ahead : Ahead str locals.p (char :: behind)) (ends : belongs char = false) :
    loop (turn str) (fuel + 1) locals = some locals := by
  have ⟨notColon, noDigit⟩ := Bool.or_eq_false_iff.mp ends
  have other : char ≠ colon := by simpa using notColon
  have noValue : digitValue char = none := by simpa using noDigit
  apply loop_leave
  unfold turn
  rw [if_pos ahead.nonNull, ahead.load]
  simp only [digit_eq, noValue, Option.map_none]
  exact if_neg other

theorem finish_eq (locals : Locals size) :
    finish locals = (locals.mac.fill locals.i [locals.value]).map fun mac => ⟨0, locals.p, mac⟩ := by
  unfold finish Output.fill
  cases locals.mac.store locals.i locals.value <;> rfl

/-- One more digit for the group. -/
theorem byteOf_snoc {worth : Nat} (isDigit : digitValue char = some worth) :
    byteOf (cur ++ [char]) = byteOf cur <<< 4 ||| UInt8.ofNat worth := by
  unfold byteOf
  rw [numeralValue_snoc isDigit, shift_or_digit (digitValue_lt isDigit)]

/-- The loop from a state on in which `value` is what the digits `cur` of the present
group are worth, and `front` is what is left of the part of the string. -/
theorem finish_loop {stop : UInt8} (ahead : Ahead str locals.p (front ++ stop :: behind))
    (allowed : ∀ char ∈ front, belongs char) (ends : belongs stop = false) (noColon : colon ∉ cur)
    (isValue : locals.value = byteOf cur) (counted : locals.i < 2 ^ 31)
    (enough : front.length < fuel) :
    (loop (turn str) fuel locals).bind finish =
      if locals.i + front.count colon < 2 ^ 31 then
        (locals.mac.fill locals.i (((cur ++ front).splitOn colon).map byteOf)).map
          fun mac => ⟨0, locals.p + front.length, mac⟩
      else none := by
  induction front generalizing fuel cur locals with
  | nil =>
      obtain ⟨left, rfl⟩ := Nat.exists_eq_succ_of_ne_zero (Nat.ne_of_gt enough)
      rw [loop_stop ahead ends, List.count_nil, Nat.add_zero, if_pos counted, List.append_nil,
        List.splitOn_eq_singleton noColon, List.map_singleton, ← isValue]
      exact finish_eq locals
  | cons char front inductionHypothesis =>
      obtain ⟨left, rfl⟩ := Nat.exists_eq_succ_of_ne_zero (Nat.ne_zero_of_lt enough)
      have allowedFront : ∀ char ∈ front, belongs char :=
        fun char member => allowed char (List.mem_cons_of_mem _ member)
      have enoughLeft : front.length < left := Nat.lt_of_succ_lt_succ enough
      have isEnd : locals.p + 1 + front.length = locals.p + (char :: front).length := by
        rw [List.length_cons]
        omega
      by_cases isColon : char = colon
      · -- The group is complete; the next one begins with no digit.
        rw [isColon] at ahead isEnd ⊢
        rw [loop_colon ahead, List.splitOn_append_cons_self_of_not_mem noColon, List.count_cons_self,
          List.map_cons, ← isValue]
        unfold Output.fill
        cases stored : locals.mac.store locals.i locals.value with
        | none => exact (ite_self none).symm
        | some mac =>
            rw [Option.bind_some]
            by_cases fits : locals.i + 1 < 2 ^ 31
            · have later := @inductionHypothesis left []
                { p := locals.p + 1, value := 0, i := locals.i + 1, mac := mac }
                ahead.next allowedFront List.not_mem_nil rfl fits enoughLeft
              rw [if_pos fits, later, ← isEnd, Nat.add_assoc locals.i, Nat.add_comm 1]
              rfl
            · rw [if_neg fits, if_neg (by omega)]
              rfl
      · have isDigit : (digitValue char).isSome := by
          have belong := allowed char List.mem_cons_self
          simpa [belongs, isColon] using belong
        obtain ⟨worth, isWorth⟩ := Option.isSome_iff_exists.mp isDigit
        have noColonYet : colon ∉ cur ++ [char] := by
          rw [List.mem_append, List.mem_singleton, not_or]
          exact ⟨noColon, Ne.symm isColon⟩
        have isNext : locals.value <<< 4 ||| UInt8.ofNat worth = byteOf (cur ++ [char]) := by
          rw [byteOf_snoc isWorth, isValue]
        have later := @inductionHypothesis left (cur ++ [char])
          { locals with p := locals.p + 1, value := locals.value <<< 4 ||| UInt8.ofNat worth }
          ahead.next allowedFront noColonYet isNext counted enoughLeft
        rw [loop_digit ahead isColon isWorth, later, ← isEnd, List.count_cons_of_ne isColon,
          List.append_assoc]
        rfl

end

/-- What `str2mac` does with any string and any array. -/
theorem str2mac_eq {size addr fuel : Nat} (mac : Output size) (text rest : List UInt8)
    (nonNull : addr ≠ 0) (enough : text.length < fuel) :
    str2mac fuel mac ⟨addr, text ++ 0 :: rest⟩ =
      if (addressPart text).count colon < 2 ^ 31 then
        (mac.fill 0 ((groups text).map byteOf)).map
          fun mac => ⟨0, addr + (addressPart text).length, mac⟩
      else none := by
  obtain ⟨stop, behind, split, ends⟩ := addressPart_split text rest
  have ahead : Ahead ⟨addr, text ++ 0 :: rest⟩ addr (addressPart text ++ stop :: behind) := by
    refine ⟨nonNull, Nat.le_refl addr, ?_⟩
    rw [Nat.sub_self, ← split]
    rfl
  have allowed : ∀ char ∈ addressPart text, belongs char := fun char => List.mem_takeWhile_imp
  have runs := @finish_loop size fuel _ _ [] _ { p := addr, value := 0, i := 0, mac := mac } stop
    ahead allowed ends List.not_mem_nil rfl (Nat.two_pow_pos 31)
    (Nat.lt_of_le_of_lt (length_addressPart_le text) enough)
  rw [Nat.zero_add] at runs
  exact runs

/-! ### The promise -/

/-- The usual text of an address: its bytes in two digits each, with colons between. -/
def IsTextOf (address : EthAddr) (text : List UInt8) : Prop :=
  ∃ numerals, List.Forall₂ SpelledBy address.toList numerals ∧ text = [colon].intercalate numerals

/-- What `str2mac` leaves of a string at the address and an array with the cells. -/
structure Decoded {size : Nat} (text : List UInt8) (addr : Nat) (cells : Vector UInt8 size)
    (reply : Reply size) : Prop where
  returned : reply.returned = 0
  stops : reply.p = addr + (addressPart text).length
  count : reply.mac.stores.length = (addressPart text).count colon + 1
  inOrder : ∀ (k : Nat) (group : List UInt8), (groups text)[k]? = some group →
    reply.mac.stores[k]? = some (k, UInt8.ofNat (numeralValue group))
  written : reply.mac.cells.toList =
    reply.mac.stores.map Prod.snd ++ cells.toList.drop reply.mac.stores.length
  recovers : ∀ address, IsTextOf address text →
    reply.mac.cells.toList = address.toList ++ cells.toList.drop ethAddrLength

/-- `str2mac` returns, for the string anywhere in memory and any array with room for one
more byte than there are colons, and does what is promised. -/
def AlwaysDecodes (text : List UInt8) : Prop :=
  ∀ addr ≠ 0, ∀ rest size, (addressPart text).count colon < size → ∀ cells : Vector UInt8 size,
    ∀ fuel > text.length, ∃ reply,
      str2mac fuel ⟨cells, []⟩ ⟨addr, text ++ 0 :: rest⟩ = some reply ∧ Decoded text addr cells reply

section

variable {address : EthAddr} {text : List UInt8} {numerals : List (List UInt8)}

theorem colon_notMem_of_spelledBy {byte : UInt8} {numeral : List UInt8}
    (spells : SpelledBy byte numeral) : colon ∉ numeral := by
  intro member
  have isDigit := spells.digits colon member
  rw [digitValue_colon] at isDigit
  contradiction

theorem byteOf_of_spelledBy {byte : UInt8} {numeral : List UInt8} (spells : SpelledBy byte numeral) :
    byteOf numeral = byte := by
  unfold byteOf
  rw [spells.numeralValue_eq, UInt8.ofNat_toNat]

theorem colon_notMem {bytes : List UInt8} (spells : List.Forall₂ SpelledBy bytes numerals) :
    ∀ numeral ∈ numerals, colon ∉ numeral := by
  induction spells with
  | nil => exact fun numeral member => absurd member List.not_mem_nil
  | cons first _ inductionHypothesis =>
      intro numeral member
      rcases List.mem_cons.mp member with rfl | later
      · exact colon_notMem_of_spelledBy first
      · exact inductionHypothesis numeral later

theorem belongs_of_mem_intercalate {bytes : List UInt8}
    (spells : List.Forall₂ SpelledBy bytes numerals) :
    ∀ char ∈ [colon].intercalate numerals, belongs char := by
  induction spells with
  | nil => exact fun char member => absurd member List.not_mem_nil
  | @cons byte numeral bytes numerals first others inductionHypothesis =>
      have inFirst : ∀ char ∈ numeral, belongs char := by
        intro char member
        exact Bool.or_eq_true_iff.mpr (.inr (first.digits char member))
      cases numerals with
      | nil =>
          rw [List.intercalate_singleton]
          exact inFirst
      | cons second rest =>
          rw [List.intercalate_cons_cons]
          intro char member
          rw [List.mem_append, List.mem_append, List.mem_singleton] at member
          rcases member with (isFirst | rfl) | later
          · exact inFirst char isFirst
          · rfl
          · exact inductionHypothesis char later

theorem map_byteOf {bytes : List UInt8} (spells : List.Forall₂ SpelledBy bytes numerals) :
    numerals.map byteOf = bytes := by
  induction spells with
  | nil => rfl
  | cons first _ inductionHypothesis =>
      rw [List.map_cons, byteOf_of_spelledBy first, inductionHypothesis]

/-- The groups of the usual text of an address are worth its bytes. -/
theorem IsTextOf.groups (isText : IsTextOf address text) :
    (groups text).map byteOf = address.toList := by
  obtain ⟨numerals, spells, rfl⟩ := isText
  have whole : addressPart ([colon].intercalate numerals) = [colon].intercalate numerals :=
    List.takeWhile_eq_self_iff.mpr (belongs_of_mem_intercalate spells)
  have nonempty : numerals ≠ [] := by
    intro none
    have length := spells.length_eq
    rw [none, Vector.length_toList] at length
    exact absurd length (by decide)
  unfold NetFamily.groups
  rw [whole, List.splitOn_intercalate colon (colon_notMem spells) nonempty, map_byteOf spells]

theorem length_map_byteOf (text : List UInt8) :
    ((groups text).map byteOf).length = (addressPart text).count colon + 1 := by
  rw [List.length_map]
  exact length_splitOn _

theorem few_of_alwaysDecodes (decodes : AlwaysDecodes text) :
    (addressPart text).count colon < 2 ^ 31 := by
  by_contra many
  have ⟨reply, returns, _⟩ := decodes 1 Nat.one_ne_zero [] _ (Nat.lt_succ_self _)
    (Vector.replicate _ 0) _ (Nat.lt_succ_self _)
  rw [str2mac_eq _ text [] Nat.one_ne_zero (Nat.lt_succ_self _), if_neg many] at returns
  contradiction

theorem alwaysDecodes_of_few (few : (addressPart text).count colon < 2 ^ 31) :
    AlwaysDecodes text := by
  intro addr nonNull rest size room cells fuel enough
  have total := length_map_byteOf text
  obtain ⟨filled, fills, good⟩ :=
    @fill_of_room size 0 ⟨cells, []⟩ ((groups text).map byteOf) (by omega)
  have stores : filled.stores = (((groups text).map byteOf).zipIdx 0).map Prod.swap := good.stores
  have values : filled.stores.map Prod.snd = (groups text).map byteOf := by
    rw [stores]
    simp [Function.comp_def]
  have count : filled.stores.length = (addressPart text).count colon + 1 := by
    rw [← total, stores]
    simp
  have written : filled.cells.toList =
      (groups text).map byteOf ++ cells.toList.drop ((groups text).map byteOf).length := by
    rw [good.cells, Nat.zero_add]
    rfl
  refine ⟨⟨0, addr + (addressPart text).length, filled⟩, ?_, rfl, rfl, count, ?_, ?_, ?_⟩
  · rw [str2mac_eq _ text rest nonNull enough, if_pos few, fills]
    rfl
  · intro k group isGroup
    show filled.stores[k]? = _
    rw [stores]
    simp [isGroup, byteOf]
  · show filled.cells.toList = _
    rw [values, count, ← total]
    exact written
  · intro address isText
    show filled.cells.toList = _
    rw [written, isText.groups, Vector.length_toList]

/-- Every address has a text, in the digits of either row. -/
theorem isTextOf_spelled {row : List UInt8} (isRow : row ∈ [lowerDigits, upperDigits])
    (address : EthAddr) :
    IsTextOf address ([colon].intercalate (address.toList.map (spelled row))) := by
  refine ⟨_, ?_, rfl⟩
  rw [List.forall₂_map_right_iff, List.forall₂_same]
  exact fun byte _ => spelledBy_spelled isRow byte

theorem count_of_isTextOf (isText : IsTextOf address text) : (addressPart text).count colon = 5 := by
  have total := length_map_byteOf text
  rw [isText.groups, Vector.length_toList] at total
  exact (Nat.succ.inj total).symm

end

/-- The exact condition, as `i` counts the colons in an `int`. -/
theorem alwaysDecodes_iff (text : List UInt8) :
    AlwaysDecodes text ↔ (addressPart text).count colon < 2 ^ 31 :=
  ⟨few_of_alwaysDecodes, alwaysDecodes_of_few⟩

private theorem count_replicate_colon (count : Nat) :
    (addressPart (List.replicate count colon)).count colon = count := by
  have whole : addressPart (List.replicate count colon) = List.replicate count colon := by
    apply List.takeWhile_eq_self_iff.mpr
    intro char member
    rw [List.eq_of_mem_replicate member]
    rfl
  rw [whole, List.count_replicate_self]

private theorem not_alwaysDecodes_replicate (count : Nat) (many : 2 ^ 31 ≤ count) :
    ¬ ∀ text, 0 ∉ text → AlwaysDecodes text := by
  intro always
  have clean : (0 : UInt8) ∉ List.replicate count colon := by
    intro member
    exact absurd (List.eq_of_mem_replicate member) (by decide)
  have few := few_of_alwaysDecodes (always _ clean)
  rw [count_replicate_colon] at few
  omega

/-- Of 2^31 colons the last one is too many for `i`. -/
theorem manyColons_overflow : ¬ ∀ text, 0 ∉ text → AlwaysDecodes text :=
  not_alwaysDecodes_replicate (2 ^ 31) (Nat.le_refl _)

/-! ### The ARP reply -/

section

variable {address : EthAddr} {text rest : List UInt8} {addr fuel : Nat} {arp : ArpPkt}

/-- `str2mac` fills an array of six bytes with the address. -/
theorem str2mac_of_isTextOf (isText : IsTextOf address text) (nonNull : addr ≠ 0)
    (enough : text.length < fuel) (cells : EthAddr) :
    ∃ reply, str2mac fuel ⟨cells, []⟩ ⟨addr, text ++ 0 :: rest⟩ = some reply ∧
      reply.mac.cells = address := by
  have five := count_of_isTextOf isText
  have few : (addressPart text).count colon < 2 ^ 31 := by
    rw [five]
    decide
  have room : (addressPart text).count colon < ethAddrLength := by
    rw [five]
    decide
  obtain ⟨reply, returns, decoded⟩ :=
    alwaysDecodes_of_few few addr nonNull rest ethAddrLength room cells fuel enough
  refine ⟨reply, returns, ?_⟩
  have left := decoded.recovers address isText
  have beyond : cells.toList.drop ethAddrLength = [] :=
    List.drop_of_length_le (Nat.le_of_eq (Vector.length_toList))
  rw [beyond, List.append_nil] at left
  exact Vector.toList_inj.mp left

/-- The reply is for the one who asked, and from the address given as text. -/
theorem echoArpPkt_of_isTextOf (isText : IsTextOf address text) (nonNull : addr ≠ 0)
    (enough : text.length < fuel) :
    echoArpPkt fuel arp ⟨addr, text ++ 0 :: rest⟩ = some
      { eh := { hDst := arp.eh.hSrc, hSrc := address, hProto := arp.eh.hProto }
        arp := { arp.arp with
          hAddrlen := 6, hProtolen := 4, oper := htons 2
          smac := address, sip := arp.arp.dip, dmac := arp.arp.smac, dip := arp.arp.sip } } := by
  have ⟨source, sourceReturns, isSource⟩ :=
    @str2mac_of_isTextOf address text rest addr fuel isText nonNull enough arp.eh.hSrc
  have ⟨sender, senderReturns, isSender⟩ :=
    @str2mac_of_isTextOf address text rest addr fuel isText nonNull enough arp.arp.smac
  unfold echoArpPkt
  simp only [sourceReturns, senderReturns, isSource, isSender, Option.bind_eq_bind, Option.bind_some]
  rfl

example : (str2mac 18 ⟨Vector.replicate 6 0, []⟩ ⟨1, ascii "00:50:56:33:1c:ca" ++ [0]⟩).map
    (fun reply => reply.mac.cells.toList) = some [0x00, 0x50, 0x56, 0x33, 0x1c, 0xca] := by
  decide +kernel

/-- The arrays in the packet have room for six groups. -/
theorem echoArpPkt_isSome_iff (nonNull : addr ≠ 0) (enough : text.length < fuel) :
    (echoArpPkt fuel arp ⟨addr, text ++ 0 :: rest⟩).isSome ↔
      (addressPart text).count colon < ethAddrLength := by
  constructor
  · intro returns
    by_contra many
    have overruns : str2mac fuel ⟨arp.eh.hSrc, []⟩ ⟨addr, text ++ 0 :: rest⟩ = none := by
      have total := length_map_byteOf text
      rw [str2mac_eq _ text rest nonNull enough, fill_eq_none (by omega) (Nat.zero_le _)]
      exact ite_self none
    unfold echoArpPkt at returns
    simp only [overruns, Option.bind_eq_bind, Option.bind_none] at returns
    contradiction
  · intro room
    have few : (addressPart text).count colon < 2 ^ 31 := by
      unfold ethAddrLength at room
      omega
    have decodes := alwaysDecodes_of_few few addr nonNull rest ethAddrLength room
    have ⟨source, sourceReturns, _⟩ := decodes arp.eh.hSrc fuel enough
    have ⟨sender, senderReturns, _⟩ := decodes arp.arp.smac fuel enough
    unfold echoArpPkt
    simp only [sourceReturns, senderReturns, Option.bind_eq_bind, Option.bind_some]
    rfl

end

end SimpleBasicComponents.NetFamily
