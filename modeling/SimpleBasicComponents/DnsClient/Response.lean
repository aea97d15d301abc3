import SimpleBasicComponents.DnsClient.Names

/-!
What `dns_parse_response` makes of a well-formed response.

Owns: names, records and messages as RFC 1035 lays them out, the list a client
should get, the messages on which the cursor of the decoder stays on the records,
the proof that these are decoded right, and a message that is not.
-/

namespace SimpleBasicComponents.DnsClient

open SimpleBasicComponents.Semantics

/-! ### Messages -/

/-- The bytes from the first offset up to the second are the name: labels, then a
zero byte or a pointer to a name that stands further ahead. -/
inductive NameAt (buffer : List UInt8) : Nat → List (List UInt8) → Nat → Prop
  | root {start : Nat} (zero : readCell buffer start = .ok 0) : NameAt buffer start [] (start + 1)
  | label {start stop : Nat} {label : List UInt8} {rest : List (List UInt8)}
      (valid : ValidLabel label) (length : readCell buffer start = .ok (UInt8.ofNat label.length))
      (bytes : readCells buffer (start + 1) label.length = .ok label)
      (later : NameAt buffer (start + 1 + label.length) rest stop) :
      NameAt buffer start (label :: rest) stop
  | pointer {start stop : Nat} {high low : UInt8} {labels : List (List UInt8)}
      (marked : 0xC0 ≤ high.toNat) (first : readCell buffer start = .ok high)
      (second : readCell buffer (start + 1) = .ok low)
      (back : (high.toNat - 0xC0) * 256 + low.toNat < start)
      (later : NameAt buffer ((high.toNat - 0xC0) * 256 + low.toNat) labels stop) :
      NameAt buffer start labels (start + 2)

structure Question where
  start : Nat
  name : List (List UInt8)
deriving DecidableEq, Repr

/-- A resource record: where its owner and its data stand, and what they are. -/
structure Record where
  start : Nat
  owner : List (List UInt8)
  type : Nat
  dataStart : Nat
  data : List UInt8
deriving DecidableEq, Repr

def Record.stop (record : Record) : Nat := record.dataStart + record.data.length

/-- Questions one behind the other: a name, a type and a class. -/
inductive QuestionsAt (buffer : List UInt8) : Nat → List Question → Nat → Prop
  | nil {start : Nat} : QuestionsAt buffer start [] start
  | cons {nameEnd stop : Nat} {question : Question} {rest : List Question}
      (name : NameAt buffer question.start question.name nameEnd)
      (fields : nameEnd + 4 ≤ buffer.length) (later : QuestionsAt buffer (nameEnd + 4) rest stop) :
      QuestionsAt buffer question.start (question :: rest) stop

/-- The owner, type, class, time to live, length and data of a record; the data of
a canonical name is a name. -/
structure RecordAt (buffer : List UInt8) (record : Record) : Prop where
  owner : ∃ nameEnd, NameAt buffer record.start record.owner nameEnd ∧ record.dataStart = nameEnd + 10
  type : readShort buffer (record.dataStart - 10) = .ok record.type
  length : readShort buffer (record.dataStart - 2) = .ok record.data.length
  data : readCells buffer record.dataStart record.data.length = .ok record.data
  canonical : record.type = dnsCname → ∃ target, NameAt buffer record.dataStart target record.stop

inductive RecordsAt (buffer : List UInt8) : Nat → List Record → Prop
  | nil {start : Nat} : RecordsAt buffer start []
  | cons {record : Record} {rest : List Record} (stands : RecordAt buffer record)
      (later : RecordsAt buffer record.stop rest) : RecordsAt buffer record.start (record :: rest)

/-- A response with these questions and these answers; other sections may follow. -/
structure WellFormed (buffer : List UInt8) (questions : List Question) (answers : List Record) :
    Prop where
  header : 12 ≤ buffer.length
  qdcount : readShort buffer 4 = .ok questions.length
  ancount : readShort buffer 6 = .ok answers.length
  sections : ∃ stop, QuestionsAt buffer 12 questions stop ∧ RecordsAt buffer stop answers

/-- An A record with an address of four bytes. -/
def Record.IsAddress (record : Record) : Prop := record.type = dnsHost ∧ record.data.length = 4

instance (record : Record) : Decidable record.IsAddress := by
  unfold Record.IsAddress
  infer_instance

/-- The owner names and the addresses, in the order of the message. -/
def addresses (answers : List Record) : List DnsItem :=
  (answers.filter fun record => record.IsAddress).map fun record =>
    ⟨joinDots record.owner, inetNtop record.data⟩

/-- The response is decoded as it should be. -/
def Decodes (buffer : List UInt8) (answers : List Record) : Prop :=
  ∃ steps, dnsParseResponse steps buffer = .ok ((addresses answers).length, addresses answers)

/-! ### Messages that are read right -/

/-- The owner is a pointer alone and is read right, as is the target of a canonical
name; their texts fit the arrays, and the owner of an address is a string. -/
structure ReadableRecord (buffer : List UInt8) (record : Record) : Prop where
  bare : readCell buffer record.start = .ok 0xC0
  owner : PlainName buffer record.start record.owner
  room : (joinDots record.owner).length ≤ 128
  string : record.IsAddress → (joinDots record.owner).length < 128 ∧ 0 ∉ joinDots record.owner
  canonical : record.type = dnsCname →
    ∃ target, PlainName buffer record.dataStart target ∧ (joinDots target).length ≤ 128

/-- The questions have no pointers, every record is read right, and records of other
types have no data, the last one excepted. -/
structure Readable (buffer : List UInt8) (questions : List Question) (answers : List Record) :
    Prop where
  uncompressed : ∀ question ∈ questions, ∃ stop, LabelsAt buffer question.start question.name stop
  readable : ∀ record ∈ answers, ReadableRecord buffer record
  others : ∀ record ∈ answers.dropLast,
    record.type ≠ dnsHost → record.type ≠ dnsCname → record.data = []

/-! ### Questions -/

section

variable {buffer : List UInt8}

/-- Labels without pointers end where the name ends. -/
theorem LabelsAt.stop_eq {start stop nameEnd : Nat} {labels : List (List UInt8)}
    (stands : LabelsAt buffer start labels stop) (name : NameAt buffer start labels nameEnd) :
    stop = nameEnd := by
  induction stands with
  | root zero =>
      cases name with
      | root => rfl
      | pointer marked first =>
          rw [zero] at first
          obtain rfl := Except.ok.inj first
          contradiction
  | @label start stop label rest valid length bytes later inductionHypothesis =>
      cases name with
      | label _ _ _ laterName => exact inductionHypothesis laterName
      | pointer marked first =>
          rw [length] at first
          have same := toNat_length valid
          rw [Except.ok.inj first] at same
          have small := valid.2
          omega

theorem skipQuestions_of_questionsAt {start stop : Nat} {questions : List Question}
    (stand : QuestionsAt buffer start questions stop)
    (plain : ∀ question ∈ questions, ∃ stop, LabelsAt buffer question.start question.name stop) :
    ∃ steps, ∀ more, steps ≤ more →
      skipQuestions buffer more questions.length start = .ok stop := by
  induction stand with
  | nil => exact ⟨0, fun _ _ => rfl⟩
  | @cons nameEnd stop question rest name fields later inductionHypothesis =>
      obtain ⟨labelsEnd, stands⟩ := plain question List.mem_cons_self
      obtain rfl := stands.stop_eq name
      obtain ⟨steps, skips⟩ := inductionHypothesis fun other member =>
        plain other (List.mem_cons_of_mem _ member)
      refine ⟨max steps (question.name.length + 1), ?_⟩
      intro more enough
      have skipsName : skipName buffer more question.start = .ok labelsEnd :=
        skipName_of_labelsAt stands (by omega)
      rw [List.length_cons, skipQuestions, skipsName, Run.ok_bind]
      exact skips more (by omega)

/-! ### Records -/

theorem readShort_of_room {offset : Nat} (room : offset + 2 ≤ buffer.length) :
    ∃ value, readShort buffer offset = .ok value := by
  have high : readCell buffer offset = .ok buffer[offset] := by
    rw [readCell_ok_iff]
    exact List.getElem?_eq_getElem _
  have low : readCell buffer (offset + 1) = .ok buffer[offset + 1] := by
    rw [readCell_ok_iff]
    exact List.getElem?_eq_getElem _
  refine ⟨buffer[offset].toNat * 256 + buffer[offset + 1].toNat, ?_⟩
  rw [readShort, high, Run.ok_bind, low, Run.ok_bind]

theorem room_of_readShort {offset value : Nat} (reads : readShort buffer offset = .ok value) :
    offset + 2 ≤ buffer.length := by
  obtain ⟨_, -, rest⟩ := Run.of_bind_ok reads
  obtain ⟨low, second, -⟩ := Run.of_bind_ok rest
  rw [readCell_ok_iff] at second
  have below := (List.getElem?_eq_some_iff.mp second).1
  omega

/-- A name that is a pointer alone takes two bytes. -/
theorem NameAt.stop_of_bare {start stop : Nat} {labels : List (List UInt8)}
    (name : NameAt buffer start labels stop) (bare : readCell buffer start = .ok 0xC0) :
    stop = start + 2 := by
  cases name with
  | root zero =>
      rw [zero] at bare
      contradiction
  | @label start stop label rest valid length =>
      rw [length] at bare
      have same := toNat_length valid
      rw [Except.ok.inj bare] at same
      have small := valid.2
      have big : (0xC0 : UInt8).toNat = 192 := rfl
      omega
  | pointer => rfl

/-- What a turn of the loop over the answers does with a record that is read right. -/
theorem parseAnswer_of_readable {record : Record} (stands : RecordAt buffer record)
    (readable : ReadableRecord buffer record) :
    ∃ steps, ∀ more, steps ≤ more → ∀ list,
      parseAnswer buffer more record.start list =
        .ok (if record.type = dnsHost ∨ record.type = dnsCname then record.stop else record.dataStart,
          list ++ addresses [record]) := by
  obtain ⟨nameEnd, name, dataAt⟩ := stands.owner
  obtain rfl := name.stop_of_bare readable.bare
  obtain ⟨ownerSteps, decodesOwner⟩ := readable.owner.spells.zeroed readable.room
    (by have room := readable.room; omega)
  have type : readShort buffer (record.start + 2) = .ok record.type := by
    have reads := stands.type
    rw [dataAt] at reads
    exact reads
  have datalen : readShort buffer (record.start + 2 + 4 + 4) = .ok record.data.length := by
    have reads := stands.length
    rw [dataAt] at reads
    exact reads
  obtain ⟨ttl, readsTtl⟩ : ∃ ttl, readShort buffer (record.start + 2 + 4) = .ok ttl := by
    apply readShort_of_room
    have room := room_of_readShort datalen
    omega
  have behind : record.start + 2 + 4 + 4 + 2 = record.dataStart := by omega
  have opens (more : Nat) (enough : ownerSteps ≤ more) (list : List DnsItem) :
      parseAnswer buffer more record.start list =
        if record.type = dnsCname then do
          let _ ← dnsParseName buffer more record.dataStart 0 (List.replicate 128 0) 0
          .ok (record.stop, list)
        else if record.type = dnsHost then
          if record.data.length = 4 then do
            let netip ← readCells buffer record.dataStart record.data.length
            let domain ← readString (joinDots record.owner ++
              List.replicate (128 - (joinDots record.owner).length) 0)
            .ok (record.stop, list ++ [⟨domain, inetNtop netip⟩])
          else .ok (record.stop, list)
        else .ok (record.dataStart, list) := by
    rw [parseAnswer, decodesOwner more enough, Run.ok_bind]
    dsimp only
    rw [type, Run.ok_bind, readsTtl, Run.ok_bind, datalen, Run.ok_bind, behind]
    rfl
  by_cases isCname : record.type = dnsCname
  · obtain ⟨target, plain, room⟩ := readable.canonical isCname
    obtain ⟨targetSteps, decodesTarget⟩ := plain.spells.zeroed room (by omega)
    refine ⟨max ownerSteps targetSteps, ?_⟩
    intro more enough list
    have notAddress : ¬ record.IsAddress := by
      intro isAddress
      exact absurd (isCname.symm.trans isAddress.1) (by decide)
    rw [opens more (by omega) list, if_pos isCname, decodesTarget more (by omega), Run.ok_bind,
      if_pos (Or.inr isCname)]
    simp [addresses, notAddress]
  · refine ⟨ownerSteps, ?_⟩
    intro more enough list
    rw [opens more enough list, if_neg isCname]
    by_cases isHost : record.type = dnsHost
    · have next : (if record.type = dnsHost ∨ record.type = dnsCname then record.stop
          else record.dataStart) = record.stop := if_pos (Or.inl isHost)
      rw [if_pos isHost, next]
      by_cases four : record.data.length = 4
      · have isAddress : record.IsAddress := ⟨isHost, four⟩
        obtain ⟨short, clean⟩ := readable.string isAddress
        have ended : List.replicate (128 - (joinDots record.owner).length) (0 : UInt8) =
            0 :: List.replicate (127 - (joinDots record.owner).length) 0 := by
          rw [← List.replicate_succ]
          congr 1
          omega
        have domain : readString (joinDots record.owner ++
            List.replicate (128 - (joinDots record.owner).length) 0) = .ok (joinDots record.owner) := by
          rw [ended, readString, cstring_append clean]
        rw [if_pos four, stands.data, Run.ok_bind, domain, Run.ok_bind]
        simp [addresses, isAddress]
      · have notAddress : ¬ record.IsAddress := fun isAddress => four isAddress.2
        rw [if_neg four]
        simp [addresses, notAddress]
    · have notAddress : ¬ record.IsAddress := fun isAddress => isHost isAddress.1
      rw [if_neg isHost, if_neg (by simp [isHost, isCname])]
      simp [addresses, notAddress]

/-- The loop over the answers stays on the records. -/
theorem parseAnswers_of_readable {start : Nat} {answers : List Record}
    (stand : RecordsAt buffer start answers)
    (readable : ∀ record ∈ answers, ReadableRecord buffer record)
    (others : ∀ record ∈ answers.dropLast,
      record.type ≠ dnsHost → record.type ≠ dnsCname → record.data = []) :
    ∃ steps, ∀ more, steps ≤ more → ∀ list,
      parseAnswers buffer more answers.length start list = .ok (list ++ addresses answers) := by
  induction stand with
  | nil =>
      refine ⟨0, ?_⟩
      intro more _ list
      simp [parseAnswers, addresses]
  | @cons record rest stands later inductionHypothesis =>
      obtain ⟨firstSteps, turns⟩ := parseAnswer_of_readable stands (readable record List.mem_cons_self)
      have both : addresses (record :: rest) = addresses [record] ++ addresses rest := by
        unfold addresses
        rw [← List.map_append, ← List.filter_append, List.singleton_append]
      cases rest with
      | nil =>
          refine ⟨firstSteps, ?_⟩
          intro more enough list
          rw [List.length_singleton, parseAnswers, turns more enough, Run.ok_bind]
          rfl
      | cons next rest =>
          have notLast : (record :: next :: rest).dropLast = record :: (next :: rest).dropLast := rfl
          rw [notLast] at others
          obtain ⟨laterSteps, goesOn⟩ := inductionHypothesis
            (fun other member => readable other (List.mem_cons_of_mem _ member))
            (fun other member => others other (List.mem_cons_of_mem _ member))
          refine ⟨max firstSteps laterSteps, ?_⟩
          intro more enough list
          -- without data the cursor behind the length is the end of the record
          have stop : (if record.type = dnsHost ∨ record.type = dnsCname then record.stop
              else record.dataStart) = record.stop := by
            split
            · rfl
            · rename_i other
              have none := others record List.mem_cons_self (fun host => other (.inl host))
                (fun canonical => other (.inr canonical))
              unfold Record.stop
              rw [none]
              rfl
          rw [List.length_cons, parseAnswers, turns more (by omega), Run.ok_bind]
          dsimp only
          rw [stop, goesOn more (by omega), both, List.append_assoc]

end

/-- A well-formed response on which the cursor stays on the records is decoded right. -/
theorem decodes_of_readable {buffer : List UInt8} {questions : List Question}
    {answers : List Record} (wellFormed : WellFormed buffer questions answers)
    (readable : Readable buffer questions answers) : Decodes buffer answers := by
  obtain ⟨middle, questionsStand, answersStand⟩ := wellFormed.sections
  obtain ⟨questionSteps, skips⟩ := skipQuestions_of_questionsAt questionsStand readable.uncompressed
  obtain ⟨answerSteps, parses⟩ :=
    parseAnswers_of_readable answersStand readable.readable readable.others
  refine ⟨max questionSteps answerSteps, ?_⟩
  have list := parses (max questionSteps answerSteps) (Nat.le_max_right _ _) []
  rw [List.nil_append] at list
  rw [dnsParseResponse, wellFormed.qdcount, Run.ok_bind, wellFormed.ancount, Run.ok_bind,
    skips _ (Nat.le_max_left _ _), Run.ok_bind, list, Run.ok_bind]

/-! ### More steps -/

section

variable {buffer : List UInt8} {steps more : Nat}

private theorem skipQuestions_settles (enough : steps ≤ more) (count ptr : Nat) :
    Run.Settles (skipQuestions buffer steps count ptr) (skipQuestions buffer more count ptr) := by
  induction count generalizing ptr with
  | zero => exact .refl _
  | succ count inductionHypothesis =>
      rw [skipQuestions, skipQuestions]
      apply (skipName_settles enough ptr).bind
      intro nameEnd
      exact inductionHypothesis _

private theorem parseAnswer_settles (enough : steps ≤ more) (ptr : Nat) (list : List DnsItem) :
    Run.Settles (parseAnswer buffer steps ptr list) (parseAnswer buffer more ptr list) := by
  rw [parseAnswer, parseAnswer]
  apply (dnsParseName_settles enough _ _ _ _).bind
  rintro ⟨aname, len⟩
  apply (Run.Settles.refl _).bind
  intro type
  apply (Run.Settles.refl _).bind
  intro ttl
  apply (Run.Settles.refl _).bind
  intro datalen
  dsimp only
  split
  · apply (dnsParseName_settles enough _ _ _ _).bind
    rintro ⟨cname, len⟩
    exact .refl _
  · exact .refl _

private theorem parseAnswers_settles (enough : steps ≤ more) (count ptr : Nat)
    (list : List DnsItem) :
    Run.Settles (parseAnswers buffer steps count ptr list)
      (parseAnswers buffer more count ptr list) := by
  induction count generalizing ptr list with
  | zero => exact .refl _
  | succ count inductionHypothesis =>
      rw [parseAnswers, parseAnswers]
      apply (parseAnswer_settles enough ptr list).bind
      rintro ⟨next, longer⟩
      exact inductionHypothesis _ _

/-- The number of steps given does not change what is returned. -/
theorem dnsParseResponse_settles (enough : steps ≤ more) :
    Run.Settles (dnsParseResponse steps buffer) (dnsParseResponse more buffer) := by
  rw [dnsParseResponse, dnsParseResponse]
  apply (Run.Settles.refl _).bind
  intro querys
  apply (Run.Settles.refl _).bind
  intro answers
  apply (skipQuestions_settles enough _ _).bind
  intro ptr
  apply (parseAnswers_settles enough _ _ _).bind
  intro list
  exact .refl _

theorem dnsParseResponse_functional {other : Nat} {left right : Nat × List DnsItem}
    (first : dnsParseResponse steps buffer = .ok left)
    (second : dnsParseResponse other buffer = .ok right) : left = right := by
  have fromFirst := @dnsParseResponse_settles buffer _ _ (Nat.le_max_left steps other)
  have fromSecond := @dnsParseResponse_settles buffer _ _ (Nat.le_max_right steps other)
  have same := (fromFirst.eq (by simp [first])).symm.trans (fromSecond.eq (by simp [second]))
  rw [first, second] at same
  exact Except.ok.inj same

end

/-- `a` is an alias of `b`, `b` has an address, and a text follows. -/
def aliasedAddress : List UInt8 :=
  [0, 1, 0x81, 0x80, 0, 1, 0, 3, 0, 0, 0, 0] ++ [1, 97, 0, 0, 1, 0, 1] ++
    [0xC0, 12, 0, 5, 0, 1, 0, 0, 0, 9, 0, 3, 1, 98, 0] ++
    [0xC0, 31, 0, 1, 0, 1, 0, 0, 0, 9, 0, 4, 192, 0, 2, 7] ++
    [0xC0, 12, 0, 16, 0, 1, 0, 0, 0, 9, 0, 2, 1, 120]

private theorem aliasedAddress_wellFormed :
    WellFormed aliasedAddress [⟨12, [[97]]⟩]
      [⟨19, [[97]], 5, 31, [1, 98, 0]⟩, ⟨34, [[98]], 1, 46, [192, 0, 2, 7]⟩,
        ⟨50, [[97]], 16, 62, [1, 120]⟩] := by
  have asked : NameAt aliasedAddress 12 [[97]] 15 :=
    .label ⟨by decide, by decide⟩ rfl rfl (.root rfl)
  have target : NameAt aliasedAddress 31 [[98]] 34 :=
    .label ⟨by decide, by decide⟩ rfl rfl (.root rfl)
  have first : NameAt aliasedAddress 19 [[97]] 21 := .pointer (by decide) rfl rfl (by decide) asked
  have second : NameAt aliasedAddress 34 [[98]] 36 := .pointer (by decide) rfl rfl (by decide) target
  have third : NameAt aliasedAddress 50 [[97]] 52 := .pointer (by decide) rfl rfl (by decide) asked
  have questions : QuestionsAt aliasedAddress 12 [⟨12, [[97]]⟩] 19 :=
    @QuestionsAt.cons aliasedAddress 15 19 ⟨12, [[97]]⟩ [] asked (by decide) .nil
  have aliasStands : RecordAt aliasedAddress ⟨19, [[97]], 5, 31, [1, 98, 0]⟩ :=
    ⟨⟨21, first, rfl⟩, rfl, rfl, rfl, fun _ => ⟨[[98]], target⟩⟩
  have addressStands : RecordAt aliasedAddress ⟨34, [[98]], 1, 46, [192, 0, 2, 7]⟩ :=
    ⟨⟨36, second, rfl⟩, rfl, rfl, rfl, fun other => absurd other (by decide)⟩
  have textStands : RecordAt aliasedAddress ⟨50, [[97]], 16, 62, [1, 120]⟩ :=
    ⟨⟨52, third, rfl⟩, rfl, rfl, rfl, fun other => absurd other (by decide)⟩
  have last : RecordsAt aliasedAddress 50 [⟨50, [[97]], 16, 62, [1, 120]⟩] :=
    @RecordsAt.cons aliasedAddress ⟨50, [[97]], 16, 62, [1, 120]⟩ [] textStands .nil
  have both : RecordsAt aliasedAddress 34
      [⟨34, [[98]], 1, 46, [192, 0, 2, 7]⟩, ⟨50, [[97]], 16, 62, [1, 120]⟩] :=
    @RecordsAt.cons aliasedAddress ⟨34, [[98]], 1, 46, [192, 0, 2, 7]⟩ _ addressStands last
  exact ⟨by decide, rfl, rfl, 19, questions,
    @RecordsAt.cons aliasedAddress ⟨19, [[97]], 5, 31, [1, 98, 0]⟩ _ aliasStands both⟩

private theorem aliasedAddress_readable :
    Readable aliasedAddress [⟨12, [[97]]⟩]
      [⟨19, [[97]], 5, 31, [1, 98, 0]⟩, ⟨34, [[98]], 1, 46, [192, 0, 2, 7]⟩,
        ⟨50, [[97]], 16, 62, [1, 120]⟩] := by
  have asked : LabelsAt aliasedAddress 12 [[97]] 15 :=
    .label ⟨by decide, by decide⟩ rfl rfl (.root rfl)
  have target : LabelsAt aliasedAddress 31 [[98]] 34 :=
    .label ⟨by decide, by decide⟩ rfl rfl (.root rfl)
  refine ⟨?_, ?_, ?_⟩
  · intro question member
    rw [List.mem_singleton.mp member]
    exact ⟨15, asked⟩
  · intro record member
    simp only [List.mem_cons, List.not_mem_nil, or_false] at member
    rcases member with rfl | rfl | rfl
    · exact ⟨rfl, .pointer rfl rfl asked.plainName, by decide, by decide,
        fun _ => ⟨[[98]], target.plainName, by decide⟩⟩
    · exact ⟨rfl, .pointer rfl rfl target.plainName, by decide, by decide,
        fun other => absurd other (by decide)⟩
    · exact ⟨rfl, .pointer rfl rfl asked.plainName, by decide, by decide,
        fun other => absurd other (by decide)⟩
  · decide

theorem aliasedAddress_decodes :
    Decodes aliasedAddress
      [⟨19, [[97]], 5, 31, [1, 98, 0]⟩, ⟨34, [[98]], 1, 46, [192, 0, 2, 7]⟩,
        ⟨50, [[97]], 16, 62, [1, 120]⟩] :=
  decodes_of_readable aliasedAddress_wellFormed aliasedAddress_readable

/-- A text and an address of `a`. -/
def textBeforeAddress : List UInt8 :=
  [0, 1, 0x81, 0x80, 0, 1, 0, 2, 0, 0, 0, 0] ++ [1, 97, 0, 0, 1, 0, 1] ++
    [0xC0, 12, 0, 16, 0, 1, 0, 0, 0, 9, 0, 2, 1, 120] ++
    [0xC0, 12, 0, 1, 0, 1, 0, 0, 0, 9, 0, 4, 192, 0, 2, 7]

/-- The cursor stays on the data of the text, and the address is not found. -/
theorem textBeforeAddress_not_decoded :
    WellFormed textBeforeAddress [⟨12, [[97]]⟩]
        [⟨19, [[97]], 16, 31, [1, 120]⟩, ⟨33, [[97]], 1, 45, [192, 0, 2, 7]⟩] ∧
      ¬ Decodes textBeforeAddress
        [⟨19, [[97]], 16, 31, [1, 120]⟩, ⟨33, [[97]], 1, 45, [192, 0, 2, 7]⟩] := by
  constructor
  · have asked : NameAt textBeforeAddress 12 [[97]] 15 :=
      .label ⟨by decide, by decide⟩ rfl rfl (.root rfl)
    have first : NameAt textBeforeAddress 19 [[97]] 21 :=
      .pointer (by decide) rfl rfl (by decide) asked
    have second : NameAt textBeforeAddress 33 [[97]] 35 :=
      .pointer (by decide) rfl rfl (by decide) asked
    have questions : QuestionsAt textBeforeAddress 12 [⟨12, [[97]]⟩] 19 :=
      @QuestionsAt.cons textBeforeAddress 15 19 ⟨12, [[97]]⟩ [] asked (by decide) .nil
    have textStands : RecordAt textBeforeAddress ⟨19, [[97]], 16, 31, [1, 120]⟩ :=
      ⟨⟨21, first, rfl⟩, rfl, rfl, rfl, fun other => absurd other (by decide)⟩
    have addressStands : RecordAt textBeforeAddress ⟨33, [[97]], 1, 45, [192, 0, 2, 7]⟩ :=
      ⟨⟨35, second, rfl⟩, rfl, rfl, rfl, fun other => absurd other (by decide)⟩
    have last : RecordsAt textBeforeAddress 33 [⟨33, [[97]], 1, 45, [192, 0, 2, 7]⟩] :=
      @RecordsAt.cons textBeforeAddress ⟨33, [[97]], 1, 45, [192, 0, 2, 7]⟩ [] addressStands .nil
    exact ⟨by decide, rfl, rfl, 19, questions,
      @RecordsAt.cons textBeforeAddress ⟨19, [[97]], 16, 31, [1, 120]⟩ _ textStands last⟩
  · rintro ⟨steps, runs⟩
    have empty : dnsParseResponse 10 textBeforeAddress = .ok (0, []) := by decide +kernel
    have same := dnsParseResponse_functional runs empty
    exact absurd (congrArg Prod.fst same) (by decide)

end SimpleBasicComponents.DnsClient
