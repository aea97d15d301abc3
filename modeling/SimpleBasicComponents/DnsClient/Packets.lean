import SimpleBasicComponents.DnsClient.Question

/-!
The packet that the client sends for any hostname.

Owns: when the name in a packet is well formed, the exact condition on the
hostname under which `dns_create_question` and `dns_build_request` make such a
packet, and what it comes to for hostnames of ordinary length.
-/

namespace SimpleBasicComponents.DnsClient

open SimpleBasicComponents.Semantics

/-! ### Well-formed names -/

/-- The bytes are labels of 1 to 63 bytes behind their lengths, and a zero byte. -/
def FormsLabels (bytes : List UInt8) : Prop :=
  ∃ labels, (∀ label ∈ labels, ValidLabel label) ∧ bytes = encodeLabels labels

/-- Behind the first `skip` bytes, the bytes fall into pieces of 1 to 63 bytes behind
their lengths, and only the last one is a zero byte in the place of a length. -/
def cutsUp : Nat → List UInt8 → Bool
  | _, [] => false
  | 0, byte :: rest =>
      if byte = 0 then rest.isEmpty else decide (byte.toNat ≤ 63) && cutsUp byte.toNat rest
  | skip + 1, _ :: rest => cutsUp skip rest

theorem ValidLabel.byte {byte : UInt8} {label : List UInt8} (length : label.length = byte.toNat) :
    UInt8.ofNat label.length = byte := by
  rw [length]
  exact UInt8.ofNat_toNat

theorem formsLabels_zero {rest : List UInt8} : FormsLabels (0 :: rest) ↔ rest = [] := by
  constructor
  · rintro ⟨labels, valid, same⟩
    cases labels with
    | nil => exact (List.cons.inj same).2
    | cons label labels =>
        have notZero := ofNat_length_ne_zero (valid label List.mem_cons_self)
        exact absurd (List.cons.inj same).1.symm notZero
  · rintro rfl
    exact ⟨[], by simp, rfl⟩

/-- The first byte is the length of the first label. -/
theorem formsLabels_cons {byte : UInt8} {rest : List UInt8} (notZero : byte ≠ 0) :
    FormsLabels (byte :: rest) ↔
      byte.toNat ≤ 63 ∧ ∃ label after, rest = label ++ after ∧ label.length = byte.toNat ∧
        FormsLabels after := by
  constructor
  · rintro ⟨labels, valid, same⟩
    cases labels with
    | nil => exact absurd (List.cons.inj same).1 notZero
    | cons label labels =>
        obtain ⟨isLength, isRest⟩ := List.cons.inj same
        have here := valid label List.mem_cons_self
        have length := toNat_length here
        rw [isLength, length]
        exact ⟨here.2, label, encodeLabels labels, isRest, rfl, labels,
          fun other member => valid other (List.mem_cons_of_mem _ member), rfl⟩
  · rintro ⟨small, label, after, rfl, length, labels, valid, rfl⟩
    have positive : byte.toNat ≠ 0 := fun zero => notZero (UInt8.toNat_inj.mp zero)
    refine ⟨label :: labels, ?_, ?_⟩
    · intro other member
      cases List.mem_cons.mp member with
      | inl same =>
          rw [same]
          exact ⟨by omega, by omega⟩
      | inr behind => exact valid other behind
    · rw [encodeLabels, ValidLabel.byte length]

theorem formsLabels_behind_nothing {bytes : List UInt8} :
    (∃ front rest, bytes = front ++ rest ∧ front.length = 0 ∧ FormsLabels rest) ↔ FormsLabels bytes := by
  constructor
  · rintro ⟨front, rest, rfl, noFront, forms⟩
    obtain rfl := List.eq_nil_of_length_eq_zero noFront
    exact forms
  · intro forms
    exact ⟨[], bytes, rfl, rfl, forms⟩

theorem cutsUp_iff (skip : Nat) (bytes : List UInt8) :
    cutsUp skip bytes = true ↔
      ∃ front rest, bytes = front ++ rest ∧ front.length = skip ∧ FormsLabels rest := by
  induction bytes generalizing skip with
  | nil =>
      simp only [cutsUp, Bool.false_eq_true, false_iff]
      rintro ⟨front, rest, whole, -, labels, -, same⟩
      obtain ⟨-, rfl⟩ := List.append_eq_nil_iff.mp whole.symm
      cases labels <;> contradiction
  | cons byte bytes inductionHypothesis =>
      cases skip with
      | succ skip =>
          rw [cutsUp, inductionHypothesis]
          constructor
          · rintro ⟨front, rest, rfl, rfl, forms⟩
            exact ⟨byte :: front, rest, rfl, rfl, forms⟩
          · rintro ⟨front, rest, whole, length, forms⟩
            cases front with
            | nil => contradiction
            | cons first front =>
                obtain ⟨-, rfl⟩ := List.cons.inj whole
                exact ⟨front, rest, rfl, Nat.succ.inj length, forms⟩
      | zero =>
          rw [cutsUp, formsLabels_behind_nothing]
          by_cases isZero : byte = 0
          · rw [if_pos isZero, List.isEmpty_iff, isZero, formsLabels_zero]
          · rw [if_neg isZero, Bool.and_eq_true, decide_eq_true_eq, inductionHypothesis,
              formsLabels_cons isZero]

theorem cutsUp_append (front rest : List UInt8) :
    cutsUp front.length (front ++ rest) = cutsUp 0 rest := by
  induction front with
  | nil => rfl
  | cons byte front inductionHypothesis => exact inductionHypothesis

theorem formsLabels_iff_cutsUp (bytes : List UInt8) : FormsLabels bytes ↔ cutsUp 0 bytes = true := by
  rw [cutsUp_iff, formsLabels_behind_nothing]

/-! ### Packets -/

/-- The packet of the question fits the buffer of the callers, and the bytes of its
name are all written and well formed. -/
def WellFormedPacket (question : DnsQuestion) : Prop :=
  ∀ header : DnsHeader, ∃ (length : Int) (packet : List (Option UInt8)) (name : List UInt8),
    dnsBuildRequest header question (List.replicate 1024 (some 0)) = .ok (length, packet) ∧
      length ≤ 1024 ∧ question.length = name.length ∧
      (packet.drop 12).take name.length = name.map some ∧ FormsLabels name

/-- The length of the question, as an `int`, is 1008 at most, so many bytes are
written, and they are cut up into labels by the lengths among them. -/
structure Encodable (hostname : List UInt8) : Prop where
  notNegative : 0 ≤ toInt (hostname.length + 2 : Nat)
  small : toInt (hostname.length + 2 : Nat) ≤ 1008
  covered : toInt (hostname.length + 2 : Nat) ≤ (written hostname).length
  cut : cutsUp 0 ((written hostname).take (toInt (hostname.length + 2 : Nat)).toNat) = true

/-- What a packet is made of, as far as there is one. -/
theorem parts_of_dnsBuildRequest {header : DnsHeader} {question : DnsQuestion}
    {request : List (Option UInt8)} {length : Int} {packet : List (Option UInt8)}
    (built : dnsBuildRequest header question request = .ok (length, packet)) :
    0 ≤ question.length ∧ question.length + 16 ≤ request.length ∧
      question.length ≤ question.qname.length := by
  simp only [dnsBuildRequest] at built
  split at built
  · obtain ⟨first, writesHeader, built⟩ := Run.of_bind_ok built
    split at built
    · contradiction
    · obtain ⟨qname, reads, built⟩ := Run.of_bind_ok built
      obtain ⟨second, writesName, built⟩ := Run.of_bind_ok built
      obtain ⟨third, writesType, built⟩ := Run.of_bind_ok built
      obtain ⟨fourth, writesClass, -⟩ := Run.of_bind_ok built
      have sameFirst := (room_of_writeCells writesHeader).2
      have sameSecond := (room_of_writeCells writesName).2
      have sameThird := (room_of_writeCells writesType).2
      have inside := (room_of_writeCells writesClass).1
      have covers := (readCells_ok_iff.mp reads).1
      have classLength : (question.qclass.bytes.map some).length = 2 := rfl
      rw [classLength, sameThird, sameSecond, sameFirst] at inside
      exact ⟨by omega, by omega, by omega⟩
  · contradiction

/-- The name stands behind the header. -/
theorem name_of_dnsBuildRequest {header : DnsHeader} {question : DnsQuestion}
    {request : List (Option UInt8)} {length : Int} {packet : List (Option UInt8)} {size : Nat}
    (built : dnsBuildRequest header question request = .ok (length, packet))
    (isSize : question.length = size) (fits : size + 16 < 2 ^ 31) :
    length = size + 16 ∧ (packet.drop 12).take size = question.qname.take size := by
  obtain ⟨-, inside, covered⟩ := parts_of_dnsBuildRequest built
  have cut := List.take_append_drop size question.qname
  have taken : (question.qname.take size).length = size := by
    rw [List.length_take]
    omega
  have builds := dnsBuildRequest_eq header (question.qname.take size) (question.qname.drop size)
    request question.qtype question.qclass (by omega) (by omega)
  have isQuestion : question = { length := ((question.qname.take size).length : Nat)
                                 qtype := question.qtype, qclass := question.qclass
                                 qname := question.qname.take size ++ question.qname.drop size } := by
    rw [taken, cut, ← isSize]
  rw [← isQuestion, built, taken] at builds
  obtain ⟨isLength, rfl⟩ := Prod.mk.inj (Except.ok.inj builds)
  have headerLength : (header.bytes.map some).length = 12 := rfl
  refine ⟨isLength, ?_⟩
  rw [List.append_assoc, List.append_assoc, List.append_assoc, List.drop_left' headerLength,
    List.take_left' taken]

/-- What is written of a memory is a prefix of what is written to it. -/
theorem prefix_of_written {name bytes : List UInt8} {unwritten : Nat}
    (same : (bytes.map some ++ List.replicate unwritten none).take name.length = name.map some) :
    name.length ≤ bytes.length ∧ name = bytes.take name.length := by
  induction name generalizing bytes with
  | nil => exact ⟨Nat.zero_le _, rfl⟩
  | cons byte name inductionHypothesis =>
      cases bytes with
      | nil =>
          cases unwritten with
          | zero => contradiction
          | succ unwritten =>
              rw [List.map_nil, List.nil_append, List.replicate_succ, List.length_cons,
                List.take_succ_cons, List.map_cons] at same
              exact absurd (List.cons.inj same).1 (by simp)
      | cons first bytes =>
          rw [List.map_cons, List.cons_append, List.length_cons, List.take_succ_cons,
            List.map_cons] at same
          obtain ⟨isFirst, rest⟩ := List.cons.inj same
          obtain ⟨covers, isRest⟩ := inductionHypothesis rest
          rw [List.length_cons, List.length_cons, List.take_succ_cons, ← isRest,
            Option.some.inj isFirst]
          exact ⟨Nat.succ_le_succ covers, rfl⟩

/-- A packet is well formed exactly when the hostname is encodable. -/
theorem wellFormedPacket_iff_encodable {allocates : Bool} {hostname : List UInt8}
    {question : DnsQuestion} (created : dnsCreateQuestion allocates hostname = .ok (0, question)) :
    WellFormedPacket question ↔ Encodable hostname := by
  cases allocates with
  | false => exact absurd (Prod.mk.inj (Except.ok.inj created)).1 (by decide)
  | true =>
      rw [dnsCreateQuestion_eq] at created
      obtain ⟨-, rfl⟩ := Prod.mk.inj (Except.ok.inj created)
      constructor
      · intro wellFormed
        obtain ⟨length, packet, name, built, fits, isLength, isName, forms⟩ :=
          wellFormed (dnsCreateHeader ⟨0, 0⟩)
        generalize isRequest : List.replicate 1024 (some (0 : UInt8)) = request at built
        have room : request.length = 1024 := by
          rw [← isRequest, List.length_replicate]
        obtain ⟨-, inside, -⟩ := parts_of_dnsBuildRequest built
        rw [isLength, room] at inside
        have few : name.length + 16 < 2 ^ 31 := by omega
        have standing := (name_of_dnsBuildRequest built isLength few).2
        dsimp only at isLength
        rw [isName] at standing
        obtain ⟨covered, isPrefix⟩ := prefix_of_written standing.symm
        refine ⟨by omega, by omega, by omega, ?_⟩
        have size : (toInt (hostname.length + 2 : Nat)).toNat = name.length := by omega
        rw [size, ← isPrefix, ← formsLabels_iff_cutsUp]
        exact forms
      · intro encodable header
        have notNegative := encodable.notNegative
        have small := encodable.small
        have covered := encodable.covered
        have cut := encodable.cut
        obtain ⟨size, isSize⟩ := Int.eq_ofNat_of_zero_le notNegative
        rw [isSize] at small covered cut
        rw [Int.toNat_natCast] at cut
        have taken : (((written hostname).take size).map some).length = size := by
          rw [List.length_map, List.length_take]
          omega
        have memory : (written hostname).map some ++
            List.replicate (hostname.length + 2 - (written hostname).length) none =
            ((written hostname).take size).map some ++ (((written hostname).drop size).map some ++
              List.replicate (hostname.length + 2 - (written hostname).length) none) := by
          rw [← List.append_assoc, ← List.map_append, List.take_append_drop]
        have builds := dnsBuildRequest_eq header (((written hostname).take size).map some)
          (((written hostname).drop size).map some ++
            List.replicate (hostname.length + 2 - (written hostname).length) none)
          (List.replicate 1024 (some 0)) (htons 1) (htons 1) (by omega)
          (by rw [taken, List.length_replicate]; omega)
        rw [← memory, taken] at builds
        have headerLength : (header.bytes.map some).length = 12 := rfl
        rw [List.length_map] at taken
        rw [isSize]
        refine ⟨_, _, (written hostname).take size, builds, ?_, ?_, ?_, ?_⟩
        · omega
        · rw [taken]
        · rw [List.append_assoc, List.append_assoc, List.append_assoc, List.drop_left' headerLength,
            List.take_left' (by rw [List.length_map])]
        · rw [formsLabels_iff_cutsUp]
          exact cut

/-- The question of `www.example.com` makes a well-formed packet. -/
theorem wwwExampleCom_wellFormedPacket :
    ∃ question, dnsCreateQuestion true (ascii "www.example.com") = .ok (0, question) ∧
      WellFormedPacket question :=
  ⟨_, dnsCreateQuestion_eq _, (wellFormedPacket_iff_encodable (dnsCreateQuestion_eq _)).mpr
    ⟨by decide, by decide, by decide, by decide⟩⟩

/-- Of the name of `a.` the last byte is not written. -/
theorem trailingDot_not_wellFormedPacket :
    ∃ question, dnsCreateQuestion true (ascii "a.") = .ok (0, question) ∧
      ¬ WellFormedPacket question := by
  have size : toInt ((ascii "a.").length + 2 : Nat) = 4 := toInt_eq 4 (by decide) (by decide)
  refine ⟨_, dnsCreateQuestion_eq _, ?_⟩
  intro wellFormed
  obtain ⟨length, packet, name, built, -, isLength, isName, -⟩ :=
    wellFormed (dnsCreateHeader ⟨0, 0⟩)
  have isSize := isLength
  dsimp only at isSize
  rw [size] at isSize
  have four : name.length = 4 := (Int.ofNat.inj isSize).symm
  have few : name.length + 16 < 2 ^ 31 := by
    rw [four]
    decide
  have standing := (name_of_dnsBuildRequest built isLength few).2
  rw [isName, four] at standing
  have unwritten : none ∈ name.map some := by
    rw [standing]
    decide
  simp at unwritten

/-! ### Hostnames of ordinary length -/

/-- As long as the length of the question does not wrap around, every piece of the
hostname has to be a label. -/
theorem encodable_iff_pieces {hostname : List UInt8} (fits : hostname.length + 2 < 2 ^ 31) :
    Encodable hostname ↔ [] ∉ pieces hostname ∧ hostname.length ≤ 1006 ∧
      cutsUp 0 (encodeLabels (pieces hostname)) = true := by
  have size : toInt (hostname.length + 2 : Nat) = (hostname.length + 2 : Nat) :=
    toInt_eq _ (by omega) (by omega)
  have whole := length_encodeLabels_tokens hostname
  have most := length_written_le hostname
  have written_of_pieces (none : [] ∉ pieces hostname) :
      written hostname = encodeLabels (pieces hostname) := by
    have isTokens : tokens hostname = pieces hostname := by
      unfold tokens
      rw [List.filter_eq_self]
      intro piece member
      simpa using fun isEmpty : piece = [] => none (isEmpty ▸ member)
    unfold written
    rw [isTokens]
    exact if_neg (List.splitOn_ne_nil dot hostname)
  constructor
  · intro encodable
    have small := encodable.small
    have covered := encodable.covered
    have cut := encodable.cut
    rw [size] at small covered cut
    have none : [] ∉ pieces hostname := by
      intro member
      have passed := List.count_pos_iff.mpr member
      unfold written at covered
      split at covered
      · rw [List.length_nil] at covered
        omega
      · omega
    rw [Int.toNat_natCast, List.take_of_length_le most, written_of_pieces none] at cut
    exact ⟨none, by omega, cut⟩
  · rintro ⟨none, short, cut⟩
    have isWritten := written_of_pieces none
    have full := length_encodeLabels_pieces hostname
    refine ⟨by omega, by omega, ?_, ?_⟩
    · rw [size, isWritten, full]
    · rw [size, Int.toNat_natCast, List.take_of_length_le most, isWritten]
      exact cut

/-- Labels of up to 256 bytes are cut up at their own lengths, or not at all. -/
theorem cutsUp_encodeLabels_iff {labels : List (List UInt8)} (nonempty : [] ∉ labels)
    (short : ∀ label ∈ labels, label.length ≤ 256) :
    cutsUp 0 (encodeLabels labels) = true ↔ ∀ label ∈ labels, label.length ≤ 63 := by
  induction labels with
  | nil => simp [encodeLabels, cutsUp]
  | cons label rest inductionHypothesis =>
      have later := inductionHypothesis (fun member => nonempty (List.mem_cons_of_mem _ member))
        fun other member => short other (List.mem_cons_of_mem _ member)
      have positive : 0 < label.length :=
        List.length_pos_of_ne_nil fun isEmpty => nonempty (isEmpty ▸ List.mem_cons_self)
      have atMost := short label List.mem_cons_self
      rw [encodeLabels, cutsUp, List.forall_mem_cons, ← later]
      by_cases isLabel : label.length ≤ 63
      · have valid : ValidLabel label := ⟨positive, isLabel⟩
        rw [if_neg (ofNat_length_ne_zero valid), toNat_length valid, decide_eq_true isLabel,
          Bool.true_and, and_iff_right isLabel, cutsUp_append]
      · have byte : (UInt8.ofNat label.length).toNat = label.length % 256 := UInt8.toNat_ofNat'
        have notBoth : ¬ (label.length ≤ 63 ∧ cutsUp 0 (encodeLabels rest) = true) :=
          fun both => isLabel both.1
        rw [iff_false_right notBoth]
        -- a length of 256 is stored as the zero byte
        by_cases isZero : UInt8.ofNat label.length = 0
        · rw [if_pos isZero, List.isEmpty_iff]
          intro empty
          have front := (List.append_eq_nil_iff.mp empty).1
          rw [front] at positive
          contradiction
        · have notZero : (UInt8.ofNat label.length).toNat ≠ 0 := fun zero =>
            isZero (UInt8.toNat_inj.mp zero)
          have large : ¬ (UInt8.ofNat label.length).toNat ≤ 63 := by omega
          rw [if_neg isZero, decide_eq_false large]
          simp

end SimpleBasicComponents.DnsClient
