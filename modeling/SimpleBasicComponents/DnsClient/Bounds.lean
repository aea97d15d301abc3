import SimpleBasicComponents.DnsClient.Response

/-!
Whether `dns_parse_response` stays in its memory.

Owns: the datagrams on which every read is in the buffer and every write in the
arrays and the list, and the proof that these are the ones on which the decoder
leaves no memory.
-/

namespace SimpleBasicComponents.DnsClient

open SimpleBasicComponents.Semantics

/-- The buffer that a datagram was received into. -/
def received (datagram : List UInt8) : List UInt8 :=
  datagram ++ List.replicate (1024 - datagram.length) 0

/-- No byte outside its memory is read or written, and no more entries of the list are
filled than it has. -/
structure StaysInside (buffer : List UInt8) : Prop where
  memory : ∀ steps, dnsParseResponse steps buffer ≠ .error .fault
  list : ∀ steps result list answers, dnsParseResponse steps buffer = .ok (result, list) →
    readShort buffer 6 = .ok answers → list.length ≤ answers

/-! ### The datagrams that are read inside -/

/-- The bytes that the loop over a question takes for lengths, up to the one that ends
it, are in the buffer. -/
inductive SkippedTo (buffer : List UInt8) : Nat → Nat → Prop
  | root {ptr : Nat} (zero : readCell buffer ptr = .ok 0) : SkippedTo buffer ptr (ptr + 1)
  | label {ptr stop : Nat} {flag : UInt8} (first : readCell buffer ptr = .ok flag)
      (notZero : flag ≠ 0) (later : SkippedTo buffer (ptr + (flag.toNat + 1)) stop) :
      SkippedTo buffer ptr stop

/-- So many questions are skipped in the buffer, and where they end. -/
def QuestionsSkippedTo (buffer : List UInt8) : Nat → Nat → Nat → Prop
  | 0, ptr, stop => ptr = stop
  | querys + 1, ptr, stop =>
      ∃ nameEnd, SkippedTo buffer ptr nameEnd ∧ QuestionsSkippedTo buffer querys (nameEnd + 4) stop

/-- The name at the offset is in the buffer, and its text in an array of 128 bytes. -/
def NameFits (buffer : List UInt8) (ptr : Nat) (text : List UInt8) : Prop :=
  Spells buffer ptr text ∧ text.length ≤ 128

/-- What a turn of the loop over the answers takes for a record: the owner fits, the
ten bytes behind its first two are in the buffer, the target of a canonical name
fits, and with an address of four bytes the owner is a string and the address is in
the buffer. -/
structure TurnInside (buffer : List UInt8) (ptr type datalen : Nat) (text : List UInt8) : Prop where
  owner : NameFits buffer ptr text
  readsType : readShort buffer (ptr + 2) = .ok type
  readsLength : readShort buffer (ptr + 10) = .ok datalen
  canonical : type = dnsCname → ∃ target, NameFits buffer (ptr + 12) target
  address : type = dnsHost → datalen = 4 → ptr + 16 ≤ buffer.length
  string : type = dnsHost → datalen = 4 → text.length < 128 ∨ 0 ∈ text

/-- Where the next turn begins. -/
def behindTurn (ptr type datalen : Nat) : Nat :=
  if type = dnsCname ∨ type = dnsHost then ptr + 12 + datalen else ptr + 12

def AnswersInside (buffer : List UInt8) : Nat → Nat → Prop
  | 0, _ => True
  | answers + 1, ptr =>
      ∃ type datalen text, TurnInside buffer ptr type datalen text ∧
        AnswersInside buffer answers (behindTurn ptr type datalen)

/-- The questions and the answers that the header announces are read in the buffer. -/
def ResponseInside (buffer : List UInt8) : Prop :=
  ∃ querys answers stop, readShort buffer 4 = .ok querys ∧ readShort buffer 6 = .ok answers ∧
    QuestionsSkippedTo buffer querys 12 stop ∧ AnswersInside buffer answers stop

section

variable {buffer : List UInt8} {steps ptr type datalen : Nat} {text : List UInt8}

/-! ### Questions -/

theorem skippedTo_of_skipName {stop : Nat} (skips : skipName buffer steps ptr = .ok stop) :
    SkippedTo buffer ptr stop := by
  induction steps generalizing ptr with
  | zero => contradiction
  | succ steps inductionHypothesis =>
      rw [skipName] at skips
      obtain ⟨flag, first, skips⟩ := Run.of_bind_ok skips
      split at skips
      · rename_i isZero
        subst isZero
        obtain rfl := Except.ok.inj skips
        exact .root first
      · rename_i notZero
        exact .label first notZero (inductionHypothesis skips)

theorem skipName_of_skippedTo {stop : Nat} (skipped : SkippedTo buffer ptr stop) :
    ∃ steps, ∀ more, steps ≤ more → skipName buffer more ptr = .ok stop := by
  induction skipped with
  | root zero =>
      refine ⟨1, ?_⟩
      intro more enough
      obtain ⟨more, rfl⟩ := Nat.exists_eq_add_of_le' enough
      rw [skipName, zero, Run.ok_bind]
      rfl
  | label first notZero later inductionHypothesis =>
      obtain ⟨steps, runs⟩ := inductionHypothesis
      refine ⟨steps + 1, ?_⟩
      intro more enough
      obtain ⟨more, rfl⟩ := Nat.exists_eq_add_of_le' (Nat.le_trans (Nat.le_add_left 1 steps) enough)
      rw [skipName, first, Run.ok_bind, if_neg notZero]
      exact runs more (Nat.le_of_succ_le_succ enough)

theorem questionsSkippedTo_of_skipQuestions {querys stop : Nat}
    (skips : skipQuestions buffer steps querys ptr = .ok stop) :
    QuestionsSkippedTo buffer querys ptr stop := by
  induction querys generalizing ptr with
  | zero => exact Except.ok.inj skips
  | succ querys inductionHypothesis =>
      rw [skipQuestions] at skips
      obtain ⟨nameEnd, skipsName, skips⟩ := Run.of_bind_ok skips
      exact ⟨nameEnd, skippedTo_of_skipName skipsName, inductionHypothesis skips⟩

theorem skipQuestions_of_skippedTo {querys stop : Nat}
    (skipped : QuestionsSkippedTo buffer querys ptr stop) :
    ∃ steps, ∀ more, steps ≤ more → skipQuestions buffer more querys ptr = .ok stop := by
  induction querys generalizing ptr with
  | zero => exact ⟨0, fun _ _ => congrArg Except.ok skipped⟩
  | succ querys inductionHypothesis =>
      obtain ⟨nameEnd, skippedName, later⟩ := skipped
      obtain ⟨nameSteps, skipsName⟩ := skipName_of_skippedTo skippedName
      obtain ⟨laterSteps, skipsLater⟩ := inductionHypothesis later
      refine ⟨max nameSteps laterSteps, ?_⟩
      intro more enough
      rw [skipQuestions, skipsName more (by omega), Run.ok_bind]
      exact skipsLater more (by omega)

/-! ### Answers -/

theorem nameFits_of_dnsParseName {result : List UInt8 × Nat}
    (runs : dnsParseName buffer steps ptr 0 (List.replicate 128 0) 0 = .ok result) :
    ∃ text, NameFits buffer ptr text ∧ result.1 = text ++ List.replicate (128 - text.length) 0 := by
  obtain ⟨text, spells, room, -, isOut, -⟩ :=
    @spells_of_dnsParseName buffer [] (List.replicate 128 0) result.1 _ _ result.2 runs
  rw [List.length_replicate] at room
  rw [List.nil_append, List.drop_replicate] at isOut
  exact ⟨text, ⟨spells, room⟩, isOut⟩

theorem dnsParseName_of_nameFits (fits : NameFits buffer ptr text) :
    ∃ steps, ∀ more, steps ≤ more →
      dnsParseName buffer more ptr 0 (List.replicate 128 0) 0 =
        .ok (text ++ List.replicate (128 - text.length) 0, text.length) := by
  have short := fits.2
  exact fits.1.zeroed fits.2 (by omega)

/-- The array with the owner is a string. -/
theorem readString_isOk_iff :
    (∃ domain, readString (text ++ List.replicate (128 - text.length) 0) = .ok domain) ↔
      text.length < 128 ∨ 0 ∈ text := by
  have zero : 0 ∈ text ++ List.replicate (128 - text.length) 0 ↔ text.length < 128 ∨ 0 ∈ text := by
    rw [List.mem_append, List.mem_replicate]
    have room : 128 - text.length ≠ 0 ↔ text.length < 128 := by omega
    rw [and_iff_left rfl, room, or_comm]
  rw [← zero]
  unfold readString cstring
  split
  · rename_i domain found
    split at found
    · rename_i member
      simp [member]
    · contradiction
  · rename_i missing
    split at missing
    · contradiction
    · rename_i notMember
      simp [notMember]

/-- A turn that has a result is inside. -/
theorem turnInside_of_parseAnswer {list : List DnsItem} {result : Nat × List DnsItem}
    (runs : parseAnswer buffer steps ptr list = .ok result) :
    ∃ type datalen text, TurnInside buffer ptr type datalen text ∧
      result.1 = behindTurn ptr type datalen ∧ result.2.length ≤ list.length + 1 := by
  rw [parseAnswer] at runs
  obtain ⟨⟨aname, len⟩, decodes, runs⟩ := Run.of_bind_ok runs
  dsimp only at runs
  obtain ⟨type, readsType, runs⟩ := Run.of_bind_ok runs
  obtain ⟨ttl, -, runs⟩ := Run.of_bind_ok runs
  obtain ⟨datalen, readsLength, runs⟩ := Run.of_bind_ok runs
  obtain ⟨text, fits, isName⟩ := nameFits_of_dnsParseName decodes
  dsimp only at isName
  have behind : ptr + 2 + 4 + 4 + 2 = ptr + 12 := by omega
  rw [behind] at runs
  refine ⟨type, datalen, text, ?_⟩
  unfold behindTurn
  split at runs
  · rename_i isCname
    have notHost : type ≠ dnsHost := by
      rw [isCname]
      decide
    obtain ⟨⟨cname, _⟩, decodesTarget, runs⟩ := Run.of_bind_ok runs
    obtain ⟨target, targetFits, -⟩ := nameFits_of_dnsParseName decodesTarget
    obtain rfl := Except.ok.inj runs
    exact ⟨⟨fits, readsType, readsLength, fun _ => ⟨target, targetFits⟩,
      fun host => absurd host notHost, fun host => absurd host notHost⟩,
      (if_pos (.inl isCname)).symm, Nat.le_succ _⟩
  · rename_i notCname
    split at runs
    · rename_i isHost
      split at runs
      · rename_i four
        obtain ⟨netip, readsAddress, runs⟩ := Run.of_bind_ok runs
        obtain ⟨domain, readsName, runs⟩ := Run.of_bind_ok runs
        obtain rfl := Except.ok.inj runs
        have inside := (readCells_ok_iff.mp readsAddress).1
        rw [isName] at readsName
        have string := readString_isOk_iff.mp ⟨domain, readsName⟩
        exact ⟨⟨fits, readsType, readsLength, fun canonical => absurd canonical notCname,
          fun _ _ => by omega, fun _ _ => string⟩, (if_pos (.inr isHost)).symm, by simp⟩
      · rename_i notFour
        obtain rfl := Except.ok.inj runs
        exact ⟨⟨fits, readsType, readsLength, fun canonical => absurd canonical notCname,
          fun _ four => absurd four notFour, fun _ four => absurd four notFour⟩,
          (if_pos (.inr isHost)).symm, Nat.le_succ _⟩
    · rename_i notHost
      obtain rfl := Except.ok.inj runs
      exact ⟨⟨fits, readsType, readsLength, fun canonical => absurd canonical notCname,
        fun host => absurd host notHost, fun host => absurd host notHost⟩,
        (if_neg (by simp [notCname, notHost])).symm, Nat.le_succ _⟩

/-- A turn that is inside has a result. -/
theorem parseAnswer_of_turnInside (turn : TurnInside buffer ptr type datalen text) :
    ∃ steps, ∀ more, steps ≤ more → ∀ list, ∃ longer,
      parseAnswer buffer more ptr list = .ok (behindTurn ptr type datalen, longer) := by
  obtain ⟨ownerSteps, decodes⟩ := dnsParseName_of_nameFits turn.owner
  have readsType := turn.readsType
  have readsLength := turn.readsLength
  obtain ⟨ttl, readsTtl⟩ : ∃ ttl, readShort buffer (ptr + 2 + 4) = .ok ttl := by
    apply readShort_of_room
    have room := room_of_readShort readsLength
    omega
  have behind : ptr + 2 + 4 + 4 + 2 = ptr + 12 := by omega
  have atLength : ptr + 2 + 4 + 4 = ptr + 10 := by omega
  have opens (more : Nat) (enough : ownerSteps ≤ more) (list : List DnsItem) :
      parseAnswer buffer more ptr list =
        if type = dnsCname then do
          let _ ← dnsParseName buffer more (ptr + 12) 0 (List.replicate 128 0) 0
          .ok (ptr + 12 + datalen, list)
        else if type = dnsHost then
          if datalen = 4 then do
            let netip ← readCells buffer (ptr + 12) datalen
            let domain ← readString (text ++ List.replicate (128 - text.length) 0)
            .ok (ptr + 12 + datalen, list ++ [⟨domain, inetNtop netip⟩])
          else .ok (ptr + 12 + datalen, list)
        else .ok (ptr + 12, list) := by
    rw [parseAnswer, decodes more enough, Run.ok_bind]
    dsimp only
    rw [readsType, Run.ok_bind, readsTtl, Run.ok_bind, atLength, readsLength, Run.ok_bind]
  unfold behindTurn
  by_cases isCname : type = dnsCname
  · obtain ⟨target, fits⟩ := turn.canonical isCname
    obtain ⟨targetSteps, decodesTarget⟩ := dnsParseName_of_nameFits fits
    refine ⟨max ownerSteps targetSteps, ?_⟩
    intro more enough list
    rw [opens more (by omega), if_pos isCname, decodesTarget more (by omega), Run.ok_bind,
      if_pos (Or.inl isCname)]
    exact ⟨list, rfl⟩
  · refine ⟨ownerSteps, ?_⟩
    intro more enough list
    rw [opens more enough, if_neg isCname]
    by_cases isHost : type = dnsHost
    · rw [if_pos isHost, if_pos (Or.inr isHost)]
      by_cases four : datalen = 4
      · have inside := turn.address isHost four
        obtain ⟨domain, readsName⟩ := readString_isOk_iff.mpr (turn.string isHost four)
        have readsAddress : readCells buffer (ptr + 12) datalen =
            .ok ((buffer.drop (ptr + 12)).take datalen) :=
          readCells_ok_iff.mpr ⟨by omega, rfl⟩
        rw [if_pos four, readsAddress, Run.ok_bind, readsName, Run.ok_bind]
        exact ⟨_, rfl⟩
      · rw [if_neg four]
        exact ⟨list, rfl⟩
    · rw [if_neg isHost, if_neg (by simp [isCname, isHost])]
      exact ⟨list, rfl⟩

theorem answersInside_of_parseAnswers {answers : Nat} {list filled : List DnsItem}
    (runs : parseAnswers buffer steps answers ptr list = .ok filled) :
    AnswersInside buffer answers ptr ∧ filled.length ≤ list.length + answers := by
  induction answers generalizing ptr list with
  | zero =>
      obtain rfl := Except.ok.inj runs
      exact ⟨trivial, Nat.le_refl _⟩
  | succ answers inductionHypothesis =>
      rw [parseAnswers] at runs
      obtain ⟨turn, turns, runs⟩ := Run.of_bind_ok runs
      obtain ⟨type, datalen, text, inside, isNext, grows⟩ := turnInside_of_parseAnswer turns
      obtain ⟨later, few⟩ := inductionHypothesis runs
      rw [isNext] at later
      exact ⟨⟨type, datalen, text, inside, later⟩, by omega⟩

theorem parseAnswers_of_inside {answers : Nat} (inside : AnswersInside buffer answers ptr) :
    ∃ steps, ∀ more, steps ≤ more → ∀ list, ∃ filled,
      parseAnswers buffer more answers ptr list = .ok filled := by
  induction answers generalizing ptr with
  | zero => exact ⟨0, fun _ _ list => ⟨list, rfl⟩⟩
  | succ answers inductionHypothesis =>
      obtain ⟨type, datalen, text, turn, later⟩ := inside
      obtain ⟨turnSteps, turns⟩ := parseAnswer_of_turnInside turn
      obtain ⟨laterSteps, goesOn⟩ := inductionHypothesis later
      refine ⟨max turnSteps laterSteps, ?_⟩
      intro more enough list
      obtain ⟨longer, result⟩ := turns more (by omega) list
      obtain ⟨filled, rest⟩ := goesOn more (by omega) longer
      refine ⟨filled, ?_⟩
      rw [parseAnswers, result, Run.ok_bind]
      exact rest

/-! ### Responses -/

/-- A response that is decoded is read inside, and the list is long enough. -/
theorem responseInside_of_dnsParseResponse {result : Nat} {list : List DnsItem}
    (runs : dnsParseResponse steps buffer = .ok (result, list)) :
    ResponseInside buffer ∧ ∀ answers, readShort buffer 6 = .ok answers → list.length ≤ answers := by
  rw [dnsParseResponse] at runs
  obtain ⟨querys, readsQuerys, runs⟩ := Run.of_bind_ok runs
  obtain ⟨answers, readsAnswers, runs⟩ := Run.of_bind_ok runs
  obtain ⟨stop, skips, runs⟩ := Run.of_bind_ok runs
  obtain ⟨filled, parses, runs⟩ := Run.of_bind_ok runs
  obtain ⟨-, rfl⟩ := Prod.mk.inj (Except.ok.inj runs)
  obtain ⟨inside, few⟩ := answersInside_of_parseAnswers parses
  refine ⟨⟨querys, answers, stop, readsQuerys, readsAnswers,
    questionsSkippedTo_of_skipQuestions skips, inside⟩, ?_⟩
  intro other same
  rw [readsAnswers] at same
  rw [← Except.ok.inj same]
  simpa using few

theorem dnsParseResponse_of_inside (inside : ResponseInside buffer) :
    ∃ steps, ∀ more, steps ≤ more → ∃ result, dnsParseResponse more buffer = .ok result := by
  obtain ⟨querys, answers, stop, readsQuerys, readsAnswers, skipped, answersInside⟩ := inside
  obtain ⟨questionSteps, skips⟩ := skipQuestions_of_skippedTo skipped
  obtain ⟨answerSteps, parses⟩ := parseAnswers_of_inside answersInside
  refine ⟨max questionSteps answerSteps, ?_⟩
  intro more enough
  obtain ⟨filled, result⟩ := parses more (by omega) []
  refine ⟨(filled.length, filled), ?_⟩
  rw [dnsParseResponse, readsQuerys, Run.ok_bind, readsAnswers, Run.ok_bind,
    skips more (by omega), Run.ok_bind, result, Run.ok_bind]

/-- Where the decoder terminates, it stays in its memory exactly when the response is
read inside. -/
theorem staysInside_iff (terminates : ∃ steps, dnsParseResponse steps buffer ≠ .error .unfinished) :
    StaysInside buffer ↔ ResponseInside buffer := by
  constructor
  · intro stays
    obtain ⟨steps, ends⟩ := terminates
    cases result : dnsParseResponse steps buffer with
    | ok decoded => exact (responseInside_of_dnsParseResponse result).1
    | error halt =>
        cases halt with
        | fault => exact absurd result (stays.memory steps)
        | unfinished => exact absurd result ends
  · intro inside
    obtain ⟨enough, returns⟩ := dnsParseResponse_of_inside inside
    refine ⟨?_, ?_⟩
    · intro steps fault
      have settles := @dnsParseResponse_settles buffer _ _ (Nat.le_max_left steps enough)
      obtain ⟨result, returned⟩ := returns (max steps enough) (Nat.le_max_right _ _)
      have same := settles.eq (by simp [fault])
      rw [returned, fault] at same
      contradiction
    · intro steps result list answers runs
      exact (responseInside_of_dnsParseResponse runs).2 answers

end

theorem textBeforeAddress_staysInside : StaysInside (received textBeforeAddress) := by
  have runs : dnsParseResponse 10 (received textBeforeAddress) = .ok (0, []) := by decide +kernel
  have ended : dnsParseResponse 10 (received textBeforeAddress) ≠ .error .unfinished := by
    rw [runs]
    simp
  exact (staysInside_iff ⟨10, ended⟩).mpr (responseInside_of_dnsParseResponse runs).1

/-- The owner of the answer has two labels of 63 bytes and one of 1. -/
def longOwner : List UInt8 :=
  [0, 1, 0x81, 0x80, 0, 0, 0, 1, 0, 0, 0, 0] ++ 63 :: List.replicate 63 97 ++
    63 :: List.replicate 63 97 ++ [1, 97, 0] ++ [0, 1, 0, 1, 0, 0, 0, 9, 0, 4, 192, 0, 2, 7]

/-- Its text has 129 bytes and is written beyond the end of the array. -/
theorem longOwner_leaves :
    dnsParseResponse 10 (received longOwner) ≠ .error .unfinished ∧
      ¬ StaysInside (received longOwner) := by
  have runs : dnsParseResponse 10 (received longOwner) = .error .fault := by decide +kernel
  constructor
  · rw [runs]
    simp
  · intro stays
    exact stays.memory 10 runs

end SimpleBasicComponents.DnsClient
