import SimpleBasicComponents.DnsClient.Names

/-!
The round trip of a name through a request.

Owns: what `dns_create_question` and `dns_build_request` write for a hostname,
and the exact bound up to which the two decoders agree with them.
-/

namespace SimpleBasicComponents.DnsClient

open SimpleBasicComponents.Semantics

/-- The labels of a hostname: at least one, each of 1 to 63 bytes without a zero
byte or a dot. -/
structure Hostname (labels : List (List UInt8)) : Prop where
  nonempty : labels ≠ []
  valid : ∀ label ∈ labels, ValidLabel label
  clean : ∀ label ∈ labels, (0 : UInt8) ∉ label
  dotless : ∀ label ∈ labels, dot ∉ label

/-! ### The encoder -/

/-- The pieces of a text between its dots. -/
def pieces (text : List UInt8) : List (List UInt8) := text.splitOn dot

/-- What `strtok` finds of them: those that are not empty. -/
def tokens (text : List UInt8) : List (List UInt8) := (pieces text).filter (· ≠ [])

theorem pieces_dot (text : List UInt8) : pieces (dot :: text) = [] :: pieces text := by
  unfold pieces
  rw [List.splitOn_cons_eq_if_modifyHead, if_pos (by rfl)]

theorem pieces_label {label text : List UInt8} (dotless : dot ∉ label) :
    pieces (label ++ dot :: text) = label :: pieces text :=
  List.splitOn_append_cons_self_of_not_mem dotless text

theorem pieces_dotless {label : List UInt8} (dotless : dot ∉ label) : pieces label = [label] :=
  List.splitOn_eq_singleton dotless

theorem tokens_dropWhile (text : List UInt8) : tokens (text.dropWhile (· = dot)) = tokens text := by
  induction text with
  | nil => rfl
  | cons byte text inductionHypothesis =>
      by_cases isDot : byte = dot
      · rw [List.dropWhile_cons_of_pos (by simpa using isDot), inductionHypothesis, isDot]
        unfold tokens
        rw [pieces_dot]
        rfl
      · rw [List.dropWhile_cons_of_neg (by simpa using isDot)]

/-- A call of `strtok` takes the first token off. -/
theorem strtok_eq (text : List UInt8) :
    match tokens text with
    | [] => strtok text = none
    | token :: others => ∃ rest, strtok text = some (token, rest) ∧ tokens rest = others := by
  rw [← tokens_dropWhile text]
  cases start : text.dropWhile (· = dot) with
  | nil =>
      unfold strtok
      rw [start]
      rfl
  | cons first others =>
      have takes : strtok text = some ((first :: others).takeWhile (· ≠ dot),
          ((first :: others).dropWhile (· ≠ dot)).drop 1) := by
        unfold strtok
        rw [start]
      have notDot : first ≠ dot := by
        have head := List.head?_dropWhile_not (fun byte => decide (byte = dot)) text
        rw [start] at head
        simpa using head
      have whole := @List.takeWhile_append_dropWhile _ (fun byte => decide (byte ≠ dot)) (first :: others)
      have isToken : (first :: others).takeWhile (· ≠ dot) =
          first :: others.takeWhile (· ≠ dot) := List.takeWhile_cons_of_pos (by simpa using notDot)
      have dotless : dot ∉ (first :: others).takeWhile (· ≠ dot) := by
        intro member
        have isNot := List.mem_takeWhile_imp member
        simp at isNot
      cases behind : (first :: others).dropWhile (· ≠ dot) with
      | nil =>
          rw [behind, List.append_nil] at whole
          rw [whole] at dotless
          have alone : tokens (first :: others) = [first :: others] := by
            unfold tokens
            rw [pieces_dotless dotless]
            rfl
          rw [alone, takes, behind, whole]
          exact ⟨[], rfl, rfl⟩
      | cons separator rest =>
          have isDot : separator = dot := by
            have head := List.head?_dropWhile_not (fun byte => decide (byte ≠ dot)) (first :: others)
            rw [behind] at head
            simpa using head
          rw [behind, isDot] at whole
          have split : tokens (first :: others) =
              (first :: others).takeWhile (· ≠ dot) :: tokens rest := by
            conv_lhs => rw [← whole]
            unfold tokens
            rw [pieces_label dotless, isToken]
            rfl
          rw [split, takes, behind]
          exact ⟨rest, rfl, rfl⟩

/-- The pieces of a hostname are its labels. -/
theorem pieces_joinDots {labels : List (List UInt8)} (nonempty : labels ≠ [])
    (dotless : ∀ label ∈ labels, dot ∉ label) : pieces (joinDots labels) = labels := by
  induction labels with
  | nil => contradiction
  | cons label rest inductionHypothesis =>
      have here := dotless label List.mem_cons_self
      cases rest with
      | nil => exact pieces_dotless here
      | cons next rest =>
          have later := inductionHypothesis (by simp)
            fun other member => dotless other (List.mem_cons_of_mem _ member)
          show pieces (label ++ dot :: joinDots (next :: rest)) = _
          rw [pieces_label here, later]

theorem length_encodeLabels_cons (label : List UInt8) (rest : List (List UInt8)) :
    (encodeLabels (label :: rest)).length = label.length + 1 + (encodeLabels rest).length := by
  show (UInt8.ofNat label.length :: (label ++ encodeLabels rest)).length = _
  rw [List.length_cons, List.length_append]
  omega

/-- The loop writes the tokens behind what is `done`, where there is room. By
induction on the tokens: the zero byte that each copy ends with is where the next
length goes. -/
theorem writeLabels_tokens {labels : List (List UInt8)} (found : labels ≠ []) {text : List UInt8}
    (isText : tokens text = labels) (done : List UInt8) (spare : List (Option UInt8))
    (room : (encodeLabels labels).length ≤ spare.length) {steps : Nat}
    (enough : labels.length < steps) :
    writeLabels steps text done.length (done.map some ++ spare) =
      .ok ((done ++ encodeLabels labels).map some ++ spare.drop (encodeLabels labels).length) := by
  induction labels generalizing text done spare steps with
  | nil => exact absurd rfl found
  | cons label rest inductionHypothesis =>
      obtain ⟨steps, rfl⟩ := Nat.exists_eq_add_of_le' (Nat.succ_le_of_lt (Nat.zero_lt_of_lt enough))
      have taken := strtok_eq text
      rw [isText] at taken
      obtain ⟨left, takes, isLeft⟩ := taken
      have whole := length_encodeLabels_cons label rest
      have ended : 1 ≤ (encodeLabels rest).length := by
        cases rest with
        | nil => exact Nat.le_refl _
        | cons => exact Nat.succ_le_of_lt (Nat.zero_lt_succ _)
      have lengthWrites : writeCells (done.map some ++ spare) done.length
          [some (UInt8.ofNat label.length)] =
          .ok ((done ++ [UInt8.ofNat label.length]).map some ++ spare.drop 1) := by
        rw [List.map_append]
        exact writeCells_fill (by simp) (by rw [List.length_singleton]; omega)
      have bytesWrite : writeCells ((done ++ [UInt8.ofNat label.length]).map some ++ spare.drop 1)
          (done.length + 1) ((label ++ [0]).map some) =
          .ok ((done ++ [UInt8.ofNat label.length] ++ label).map some ++
            some 0 :: spare.drop (label.length + 2)) := by
        rw [writeCells_fill (by simp) (by
          rw [List.length_map, List.length_append, List.length_singleton, List.length_drop]
          omega)]
        simp [Nat.add_comm, Nat.add_left_comm]
      have filled : (done ++ [UInt8.ofNat label.length] ++ label).length =
          done.length + 1 + label.length := by
        rw [List.length_append, List.length_append, List.length_singleton]
      have onward : writeLabels (steps + 1) text done.length (done.map some ++ spare) =
          writeLabels steps left (done ++ [UInt8.ofNat label.length] ++ label).length
            ((done ++ [UInt8.ofNat label.length] ++ label).map some ++
              some 0 :: spare.drop (label.length + 2)) := by
        rw [filled]
        simp only [writeLabels, takes, bind, Except.bind, lengthWrites, bytesWrite]
      have grown : done ++ encodeLabels (label :: rest) =
          done ++ [UInt8.ofNat label.length] ++ label ++ encodeLabels rest := by
        simp [encodeLabels]
      rw [onward, grown]
      cases rest with
      | nil =>
          obtain ⟨steps, rfl⟩ := Nat.exists_eq_add_of_le' (Nat.le_of_succ_le_succ enough)
          have exhausted := strtok_eq left
          rw [isLeft] at exhausted
          have last : (encodeLabels [label]).length = label.length + 2 := whole
          rw [last]
          simp [writeLabels, exhausted, encodeLabels]
      | cons next rest =>
          have spareLeft : (encodeLabels (next :: rest)).length ≤
              (some (0 : UInt8) :: spare.drop (label.length + 2)).length := by
            rw [List.length_cons, List.length_drop]
            omega
          rw [inductionHypothesis (by simp) isLeft _ _ spareLeft (Nat.lt_of_succ_lt_succ enough)]
          have rest : (some (0 : UInt8) :: spare.drop (label.length + 2)).drop
              (encodeLabels (next :: rest)).length =
              spare.drop (encodeLabels (label :: next :: rest)).length := by
            obtain ⟨more, isMore⟩ := Nat.exists_eq_add_of_le' ended
            rw [isMore, List.drop_succ_cons, List.drop_drop, whole, isMore]
            congr 1
            omega
          rw [rest]

theorem joinDots_eq_intercalate (labels : List (List UInt8)) :
    joinDots labels = [dot].intercalate labels := by
  induction labels with
  | nil => rfl
  | cons label rest inductionHypothesis =>
      cases rest with
      | nil => simp [joinDots]
      | cons next rest =>
          show label ++ dot :: joinDots (next :: rest) = _
          rw [inductionHypothesis, List.intercalate_cons_of_ne_nil (List.cons_ne_nil next rest)]
          simp only [List.append_assoc, List.singleton_append]

theorem length_encodeLabels_pieces (text : List UInt8) :
    (encodeLabels (pieces text)).length = text.length + 2 := by
  unfold pieces
  rw [length_encodeLabels (List.splitOn_ne_nil dot text), joinDots_eq_intercalate,
    List.intercalate_splitOn]

theorem length_encodeLabels_filter (labels : List (List UInt8)) :
    (encodeLabels (labels.filter (· ≠ []))).length + labels.count [] = (encodeLabels labels).length := by
  induction labels with
  | nil => rfl
  | cons label rest inductionHypothesis =>
      by_cases isEmpty : label = []
      · rw [List.filter_cons_of_neg (by simpa using isEmpty), isEmpty, List.count_cons_self,
          length_encodeLabels_cons, List.length_nil]
        omega
      · rw [List.filter_cons_of_pos (by simpa using isEmpty), List.count_cons_of_ne isEmpty,
          length_encodeLabels_cons, length_encodeLabels_cons]
        omega

/-- Each piece that `strtok` passes over leaves a byte of the memory. -/
theorem length_encodeLabels_tokens (text : List UInt8) :
    (encodeLabels (tokens text)).length + (pieces text).count [] = text.length + 2 := by
  have filtered := length_encodeLabels_filter (pieces text)
  rw [length_encodeLabels_pieces] at filtered
  exact filtered

theorem length_tokens_le (text : List UInt8) : (tokens text).length ≤ text.length := by
  have twoEach {labels : List (List UInt8)} (nonempty : ∀ label ∈ labels, label ≠ []) :
      2 * labels.length + 1 ≤ (encodeLabels labels).length := by
    induction labels with
    | nil => exact Nat.le_refl _
    | cons label rest inductionHypothesis =>
        have later := inductionHypothesis fun other member =>
          nonempty other (List.mem_cons_of_mem _ member)
        have positive := List.length_pos_of_ne_nil (nonempty label List.mem_cons_self)
        rw [length_encodeLabels_cons, List.length_cons]
        omega
  have whole := length_encodeLabels_tokens text
  have pairs := @twoEach (tokens text) fun label member => by simpa using (List.mem_filter.mp member).2
  omega

/-- The bytes of `qname` that are written. -/
def written (hostname : List UInt8) : List UInt8 :=
  if tokens hostname = [] then [] else encodeLabels (tokens hostname)

theorem length_written_le (hostname : List UInt8) :
    (written hostname).length ≤ hostname.length + 2 := by
  have whole := length_encodeLabels_tokens hostname
  unfold written
  split
  · exact Nat.zero_le _
  · omega

/-- With memory for the name there is a question, whatever the hostname; what `strtok`
passes over stays unwritten at the end. -/
theorem dnsCreateQuestion_eq (hostname : List UInt8) :
    dnsCreateQuestion true hostname =
      .ok (0, { length := toInt (hostname.length + 2 : Nat), qtype := htons 1, qclass := htons 1,
                qname := (written hostname).map some ++
                  List.replicate (hostname.length + 2 - (written hostname).length) none }) := by
  have writes : writeLabels (hostname.length + 1) hostname 0
      (List.replicate (hostname.length + 2) none) =
      .ok ((written hostname).map some ++
        List.replicate (hostname.length + 2 - (written hostname).length) none) := by
    unfold written
    by_cases none : tokens hostname = []
    · have exhausted := strtok_eq hostname
      rw [none] at exhausted
      rw [if_pos none, writeLabels, exhausted]
      rfl
    · have room := length_encodeLabels_tokens hostname
      have fills := writeLabels_tokens none rfl [] (List.replicate (hostname.length + 2) Option.none)
        (by rw [List.length_replicate]; omega) (Nat.lt_succ_of_le (length_tokens_le hostname))
      simp only [List.map_nil, List.nil_append, List.length_nil] at fills
      rw [if_neg none, fills, List.drop_replicate]
  simp only [dnsCreateQuestion, if_true, writes, bind, Except.bind]

/-- The name of a hostname fills its memory with the encoding. -/
theorem dnsCreateQuestion_encodes {labels : List (List UInt8)} (host : Hostname labels) :
    dnsCreateQuestion true (joinDots labels) =
      .ok (0, { length := toInt ((joinDots labels).length + 2 : Nat), qtype := htons 1, qclass := htons 1,
                qname := (encodeLabels labels).map some }) := by
  have isTokens : tokens (joinDots labels) = labels := by
    unfold tokens
    rw [pieces_joinDots host.nonempty host.dotless, List.filter_eq_self]
    intro label member
    have positive := (host.valid label member).1
    simpa using List.ne_nil_of_length_pos positive
  have isWritten : written (joinDots labels) = encodeLabels labels := by
    unfold written
    rw [isTokens, if_neg host.nonempty]
  have full : (joinDots labels).length + 2 - (encodeLabels labels).length = 0 := by
    rw [length_encodeLabels host.nonempty]
    omega
  rw [dnsCreateQuestion_eq, isWritten, full, List.replicate_zero, List.append_nil]

/-! ### The request -/

/-- What the decoders have to make of what the encoder writes: the name fills its
memory and has the length of the question, `dns_parse_name` gives the hostname
back, and the loop over the question stops at the end of the packet. -/
def RoundTrip (labels : List (List UInt8)) : Prop :=
  ∃ question qname, dnsCreateQuestion true (joinDots labels) = .ok (0, question) ∧
    question.qname = List.map some qname ∧ question.length = qname.length ∧
    (∀ space, (joinDots labels).length < space → ∃ steps, ∀ more, steps ≤ more →
      dnsParseName qname more 0 0 (List.replicate space 0) 0 =
        .ok (joinDots labels ++ List.replicate (space - (joinDots labels).length) 0,
          (joinDots labels).length)) ∧
    ∀ (header : DnsHeader) (request : List (Option UInt8)),
      (joinDots labels).length + 18 ≤ request.length →
      ∃ packet rest, dnsBuildRequest header question request =
          .ok ((packet : List UInt8).length, packet.map some ++ rest) ∧
        ∃ steps, ∀ more, steps ≤ more → skipQuestions packet more 1 12 = .ok packet.length

theorem toInt_eq (value : Int) (low : -2147483648 ≤ value) (high : value < 2147483648) :
    toInt value = value := by
  unfold toInt
  exact Int.bmod_eq_of_le low high

theorem toInt_lt (value : Int) : toInt value < 2147483648 := by
  unfold toInt
  exact Int.bmod_lt (by decide)

/-- Just beyond the largest `int` the value turns negative. -/
private theorem toInt_wraps (value : Int) (low : 2147483648 ≤ value) (high : value < 4294967296) :
    toInt value = value - 4294967296 := by
  have same : toInt value = toInt (value - 4294967296) := by
    unfold toInt
    exact (Int.sub_bmod_right value (2 ^ 32)).symm
  rw [same]
  exact toInt_eq _ (by omega) (by omega)

/-- What `dns_build_request` puts together, as long as the lengths fit an `int`; the
name may take less than its memory. -/
theorem dnsBuildRequest_eq (header : DnsHeader) (name unread : List (Option UInt8))
    (request : List (Option UInt8)) (qtype qclass : Stored) (fits : name.length + 16 < 2 ^ 31)
    (room : name.length + 16 ≤ request.length) :
    dnsBuildRequest header
        { length := name.length, qtype := qtype, qclass := qclass, qname := name ++ unread } request =
      .ok (name.length + 16,
        header.bytes.map some ++ name ++ qtype.bytes.map some ++ qclass.bytes.map some ++
          request.drop (name.length + 16)) := by
  have headerLength : header.bytes.length = 12 := rfl
  have typeLength : qtype.bytes.length = 2 := rfl
  have classLength : qclass.bytes.length = 2 := rfl
  have question : toInt ((name.length : Int) + 2 + 2) = (name.length : Int) + 2 + 2 :=
    toInt_eq _ (by omega) (by omega)
  have notNegative : ¬ (name.length : Int) < 0 := by omega
  have lengthFits : (name.length : Int) + 2 + 2 + 12 < 2 ^ 31 := by omega
  have size : (name.length : Int).toNat = name.length := Int.toNat_natCast _
  have first : writeCells request 0 (header.bytes.map some) =
      .ok (header.bytes.map some ++ request.drop 12) := by
    have fill : writeCells ([] ++ request) 0 (header.bytes.map some) =
        .ok ([] ++ header.bytes.map some ++ request.drop (header.bytes.map some).length) :=
      writeCells_fill rfl (by rw [List.length_map, headerLength]; omega)
    rw [List.nil_append, List.nil_append, List.length_map, headerLength] at fill
    exact fill
  have reads : readCells (name ++ unread) 0 name.length = .ok name := by
    have whole : readCells ([] ++ (name ++ unread)) 0 name.length = .ok name :=
      readCells_append rfl rfl
    rw [List.nil_append] at whole
    exact whole
  have second : writeCells (header.bytes.map some ++ request.drop 12) 12 name =
      .ok (header.bytes.map some ++ name ++ request.drop (12 + name.length)) := by
    rw [writeCells_fill (by rw [List.length_map, headerLength]) (by rw [List.length_drop]; omega),
      List.drop_drop]
  have third : writeCells (header.bytes.map some ++ name ++ request.drop (12 + name.length))
      (12 + name.length) (qtype.bytes.map some) =
      .ok (header.bytes.map some ++ name ++ qtype.bytes.map some ++
        request.drop (12 + name.length + 2)) := by
    rw [writeCells_fill (by rw [List.length_append, List.length_map, headerLength])
      (by rw [List.length_map, List.length_drop, typeLength]; omega)]
    rw [List.length_map, typeLength, List.drop_drop]
  have fourth : writeCells (header.bytes.map some ++ name ++ qtype.bytes.map some ++
      request.drop (12 + name.length + 2)) (12 + name.length + 2) (qclass.bytes.map some) =
      .ok (header.bytes.map some ++ name ++ qtype.bytes.map some ++ qclass.bytes.map some ++
        request.drop (name.length + 16)) := by
    rw [writeCells_fill (by rw [List.length_append, List.length_append, List.length_map, List.length_map, headerLength, typeLength])
      (by rw [List.length_map, List.length_drop, classLength]; omega)]
    rw [List.length_map, classLength, List.drop_drop]
    have same : 12 + name.length + 2 + 2 = name.length + 16 := by omega
    rw [same]
  have total : (name.length : Int) + 16 = (name.length : Int) + 2 + 2 + 12 := by omega
  simp only [dnsBuildRequest, question, if_pos lengthFits, first, bind, Except.bind,
    if_neg notNegative, size, reads, second, third, fourth, total]

/-- The packet of a name that fills its memory. -/
private theorem dnsBuildRequest_packet (header : DnsHeader) (qname : List UInt8)
    (request : List (Option UInt8)) (fits : qname.length + 16 < 2 ^ 31)
    (room : qname.length + 16 ≤ request.length) :
    dnsBuildRequest header
        { length := qname.length, qtype := htons 1, qclass := htons 1, qname := qname.map some }
        request =
      .ok (((header.bytes ++ qname ++ (htons 1).bytes ++ (htons 1).bytes).length : Nat),
        (header.bytes ++ qname ++ (htons 1).bytes ++ (htons 1).bytes).map some ++
          request.drop (qname.length + 16)) := by
  have headerLength : header.bytes.length = 12 := rfl
  have typeLength : (htons 1).bytes.length = 2 := rfl
  have builds := dnsBuildRequest_eq header (qname.map some) [] request (htons 1) (htons 1)
    (by rw [List.length_map]; exact fits) (by rw [List.length_map]; exact room)
  have total : ((header.bytes ++ qname ++ (htons 1).bytes ++ (htons 1).bytes).length : Int) =
      (qname.length : Int) + 16 := by
    rw [List.length_append, List.length_append, List.length_append, headerLength, typeLength]
    omega
  rw [List.append_nil, List.length_map] at builds
  rw [builds, total, List.map_append, List.map_append, List.map_append]

private theorem dnsBuildRequest_length {header : DnsHeader} {question : DnsQuestion}
    {request : List (Option UInt8)} {length : Int} {packet : List (Option UInt8)}
    (built : dnsBuildRequest header question request = .ok (length, packet)) :
    toInt (question.length + 2 + 2) + 12 < 2147483648 ∧
      length = toInt (question.length + 2 + 2) + 12 := by
  simp only [dnsBuildRequest] at built
  split at built
  · rename_i fits
    obtain ⟨_, -, built⟩ := Run.of_bind_ok built
    split at built
    · exact absurd built (by simp)
    · obtain ⟨_, -, built⟩ := Run.of_bind_ok built
      obtain ⟨_, -, built⟩ := Run.of_bind_ok built
      obtain ⟨_, -, built⟩ := Run.of_bind_ok built
      obtain ⟨_, -, built⟩ := Run.of_bind_ok built
      exact ⟨fits, (Prod.mk.inj (Except.ok.inj built)).1.symm⟩
  · exact absurd built (by simp)

/-- The length of the question, and after it that of the packet, wraps around. -/
private theorem fits_of_roundTrip {labels : List (List UInt8)} (host : Hostname labels)
    (trips : RoundTrip labels) : (joinDots labels).length + 18 < 2 ^ 31 := by
  have encoded := length_encodeLabels host.nonempty
  have ⟨question, qname, creates, isName, whole, _, builds⟩ := trips
  rw [dnsCreateQuestion_encodes host] at creates
  obtain ⟨-, rfl⟩ := Prod.mk.inj (Except.ok.inj creates)
  have same : qname = encodeLabels labels :=
    (List.map_injective_iff.mpr (Option.some_injective _) isName).symm
  have length : toInt ((joinDots labels).length + 2 : Nat) = ((joinDots labels).length + 2 : Nat) := by
    dsimp only at whole
    rw [same, encoded] at whole
    exact whole
  have small : (joinDots labels).length + 2 < 2147483648 := by
    have bound := toInt_lt ((joinDots labels).length + 2 : Nat)
    rw [length] at bound
    omega
  obtain ⟨packet, rest, built, -⟩ := builds (dnsCreateHeader ⟨0, 0⟩)
    (List.replicate ((joinDots labels).length + 18) none) (by simp)
  by_contra beyond
  obtain ⟨fits, result⟩ := dnsBuildRequest_length built
  dsimp only at fits result
  rw [length] at fits result
  by_cases wraps : (joinDots labels).length + 6 < 2147483648
  · have sum : toInt (((joinDots labels).length + 2 : Nat) + 2 + 2) =
        ((joinDots labels).length + 2 : Nat) + 2 + 2 := toInt_eq _ (by omega) (by omega)
    omega
  · have sum : toInt (((joinDots labels).length + 2 : Nat) + 2 + 2) =
        ((joinDots labels).length + 2 : Nat) + 2 + 2 - 4294967296 :=
      toInt_wraps _ (by omega) (by omega)
    omega

private theorem roundTrip_of_fits {labels : List (List UInt8)} (host : Hostname labels)
    (fits : (joinDots labels).length + 18 < 2 ^ 31) : RoundTrip labels := by
  have encoded := length_encodeLabels host.nonempty
  have length : toInt ((joinDots labels).length + 2 : Nat) = ((encodeLabels labels).length : Int) := by
    have small := toInt_eq ((joinDots labels).length + 2 : Nat) (by omega) (by omega)
    rw [← encoded] at small ⊢
    exact small
  have creates := dnsCreateQuestion_encodes host
  rw [length] at creates
  refine ⟨_, encodeLabels labels, creates, rfl, rfl, ?_, ?_⟩
  · intro space room
    have stands := labelsAt_encodeLabels host.valid [] []
    rw [List.nil_append, List.append_nil] at stands
    exact stands.plainName.spells.zeroed (Nat.le_of_lt room) (by omega)
  · intro header request room
    refine ⟨_, _, dnsBuildRequest_packet header (encodeLabels labels) request (by omega) (by omega), ?_⟩
    have stands := labelsAt_encodeLabels host.valid header.bytes
      ((htons 1).bytes ++ (htons 1).bytes)
    have headerLength : header.bytes.length = 12 := rfl
    have typeLength : (htons 1).bytes.length = 2 := rfl
    have split : header.bytes ++ encodeLabels labels ++ (htons 1).bytes ++ (htons 1).bytes =
        header.bytes ++ (encodeLabels labels ++ ((htons 1).bytes ++ (htons 1).bytes)) := by simp
    have total : (header.bytes ++ (encodeLabels labels ++ ((htons 1).bytes ++ (htons 1).bytes))).length =
        12 + (encodeLabels labels).length + 4 := by
      rw [List.length_append, List.length_append, List.length_append, headerLength, typeLength]
      omega
    rw [headerLength] at stands
    refine ⟨labels.length + 1, ?_⟩
    intro more enough
    have skips := skipName_of_labelsAt stands (Nat.lt_of_succ_le enough)
    rw [split]
    simp only [skipQuestions, skips, bind, Except.bind, total]

/-- A hostname makes the round trip exactly when the length of its packet fits an `int`. -/
theorem roundTrip_iff {labels : List (List UInt8)} (host : Hostname labels) :
    RoundTrip labels ↔ (joinDots labels).length + 18 < 2 ^ 31 :=
  ⟨fits_of_roundTrip host, roundTrip_of_fits host⟩

/-- `www.example.com` makes the round trip. -/
theorem wwwExampleCom_roundTrip :
    RoundTrip [ascii "www", ascii "example", ascii "com"] :=
  (roundTrip_iff ⟨by decide, by unfold ValidLabel; decide, by decide, by decide⟩).mpr (by decide)

private theorem joinDots_replicate (count : Nat) :
    (joinDots (List.replicate (count + 1) [97])).length = 2 * count + 1 := by
  induction count with
  | zero => rfl
  | succ count inductionHypothesis =>
      have unfolded : joinDots (List.replicate (count + 1 + 1) [97]) =
          97 :: dot :: joinDots (List.replicate (count + 1) [97]) := rfl
      rw [unfolded, List.length_cons, List.length_cons, inductionHypothesis]
      omega

private theorem hostname_replicate (count : Nat) : Hostname (List.replicate (count + 1) [97]) := by
  refine ⟨List.cons_ne_nil _ _, ?_, ?_, ?_⟩
  · intro label member
    rw [List.eq_of_mem_replicate member]
    exact ⟨Nat.le_refl _, by decide⟩
  · intro label member
    rw [List.eq_of_mem_replicate member]
    decide
  · intro label member
    rw [List.eq_of_mem_replicate member]
    decide

private theorem not_roundTrip_replicate (count : Nat) (long : 2 ^ 31 ≤ 2 * count + 19) :
    ∃ labels, Hostname labels ∧ ¬ RoundTrip labels := by
  refine ⟨_, hostname_replicate count, ?_⟩
  intro trips
  have fits := fits_of_roundTrip (hostname_replicate count) trips
  rw [joinDots_replicate] at fits
  omega

/-- A hostname of 2^30 + 1 labels of one byte is too long for the length of the question. -/
theorem manyLabels_not_roundTrip : ∃ labels, Hostname labels ∧ ¬ RoundTrip labels :=
  not_roundTrip_replicate (2 ^ 30) (by omega)

end SimpleBasicComponents.DnsClient
