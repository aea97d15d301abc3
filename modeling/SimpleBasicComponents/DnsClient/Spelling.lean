import SimpleBasicComponents.DnsClient.Model

/-!
What `dns_parse_name` reads in any message.

Owns: the text that the bytes at an offset spell for the decoder, with pointers of
one byte and the separators it puts, and the proof that a call returns exactly
where a text is spelled that fits its memory, with that text.
-/

namespace SimpleBasicComponents.DnsClient

open SimpleBasicComponents.Semantics

/-- What is put behind a label, by the byte that follows it. -/
def separator (ahead : UInt8) : List UInt8 := if ahead = 0 then [] else [dot]

/-- The loop that starts at the offset stays in the message, ends, and writes the text. -/
inductive Spells (chunk : List UInt8) : Nat → List UInt8 → Prop
  | root {start : Nat} (zero : readCell chunk start = .ok 0) : Spells chunk start []
  | pointer {start : Nat} {flag low : UInt8} {text : List UInt8}
      (first : readCell chunk start = .ok flag) (marked : isPointer flag.toNat = true)
      (second : readCell chunk (start + 1) = .ok low) (later : Spells chunk low.toNat text) :
      Spells chunk start text
  | label {start : Nat} {flag ahead : UInt8} {label text : List UInt8}
      (first : readCell chunk start = .ok flag) (notZero : flag ≠ 0)
      (plain : isPointer flag.toNat = false)
      (bytes : readCells chunk (start + 1) flag.toNat = .ok label)
      (behind : readCell chunk (start + 1 + flag.toNat) = .ok ahead)
      (later : Spells chunk (start + 1 + flag.toNat) text) :
      Spells chunk start (label ++ separator ahead ++ text)

theorem length_of_readCells {Cell : Type} {memory cells : List Cell} {offset count : Nat}
    (reads : readCells memory offset count = .ok cells) : cells.length = count := by
  obtain ⟨inside, rfl⟩ := readCells_ok_iff.mp reads
  rw [List.length_take, List.length_drop]
  omega

theorem isPointer_iff (flag : UInt8) : isPointer flag.toNat = true ↔ 0xC0 ≤ flag.toNat := by
  have all : ∀ n : Fin 256, isPointer n = true ↔ 0xC0 ≤ (n : Nat) := by decide +kernel
  exact all ⟨flag.toNat, flag.toNat_lt⟩

theorem marked_ne_zero {flag : UInt8} (marked : isPointer flag.toNat = true) : flag ≠ 0 := by
  rintro rfl
  exact absurd marked (by decide)

/-- The bytes determine the text. -/
theorem Spells.functional {chunk : List UInt8} {start : Nat} {text other : List UInt8}
    (spells : Spells chunk start text) (again : Spells chunk start other) : text = other := by
  induction spells generalizing other with
  | root zero =>
      cases again with
      | root => rfl
      | pointer first marked =>
          rw [zero] at first
          exact absurd (Except.ok.inj first).symm (marked_ne_zero marked)
      | label first notZero =>
          rw [zero] at first
          exact absurd (Except.ok.inj first).symm notZero
  | pointer first marked second later inductionHypothesis =>
      cases again with
      | root zero =>
          rw [zero] at first
          exact absurd (Except.ok.inj first).symm (marked_ne_zero marked)
      | pointer sameFirst _ sameSecond sameLater =>
          rw [second] at sameSecond
          obtain rfl := Except.ok.inj sameSecond
          exact inductionHypothesis sameLater
      | label sameFirst _ plain =>
          rw [first] at sameFirst
          obtain rfl := Except.ok.inj sameFirst
          rw [marked] at plain
          contradiction
  | label first notZero plain bytes behind later inductionHypothesis =>
      cases again with
      | root zero =>
          rw [zero] at first
          exact absurd (Except.ok.inj first).symm notZero
      | pointer sameFirst marked =>
          rw [first] at sameFirst
          obtain rfl := Except.ok.inj sameFirst
          rw [marked] at plain
          contradiction
      | label sameFirst _ _ sameBytes sameBehind sameLater =>
          rw [first] at sameFirst
          obtain rfl := Except.ok.inj sameFirst
          rw [bytes] at sameBytes
          obtain rfl := Except.ok.inj sameBytes
          rw [behind] at sameBehind
          obtain rfl := Except.ok.inj sameBehind
          rw [inductionHypothesis sameLater]

/-! ### The decoder -/

section

variable {chunk : List UInt8} {steps ptr pos len : Nat} {flag ahead : UInt8}

theorem dnsParseName_end {out : List UInt8} (zero : readCell chunk ptr = .ok 0) :
    dnsParseName chunk (steps + 1) ptr pos out len = .ok (out, len) := by
  rw [dnsParseName, zero, Run.ok_bind]
  rfl

theorem dnsParseName_pointer {out : List UInt8} {low : UInt8} (first : readCell chunk ptr = .ok flag)
    (marked : isPointer flag.toNat = true) (second : readCell chunk (ptr + 1) = .ok low) :
    dnsParseName chunk (steps + 1) ptr pos out len =
      dnsParseName chunk steps low.toNat len out len := by
  rw [dnsParseName, first, Run.ok_bind, if_neg (marked_ne_zero marked), if_pos marked, second,
    Run.ok_bind]

/-- A label goes behind what is `done`, and a separator if there is more. -/
theorem dnsParseName_label {done third label : List UInt8}
    (first : readCell chunk ptr = .ok flag) (notZero : flag ≠ 0)
    (plain : isPointer flag.toNat = false)
    (bytes : readCells chunk (ptr + 1) flag.toNat = .ok label)
    (behind : readCell chunk (ptr + 1 + flag.toNat) = .ok ahead) {room : List UInt8}
    (same : room.length = (label ++ separator ahead).length)
    (fits : done.length + (label ++ separator ahead).length < 2 ^ 31) :
    dnsParseName chunk (steps + 1) ptr done.length (done ++ (room ++ third)) done.length =
      dnsParseName chunk steps (ptr + 1 + flag.toNat) (done ++ (label ++ separator ahead)).length
        (done ++ (label ++ separator ahead) ++ third) (done ++ (label ++ separator ahead)).length := by
  have length := length_of_readCells bytes
  rw [List.length_append] at same fits
  have cut := List.take_append_drop label.length room
  have writes : writeCells (done ++ (room ++ third)) done.length label =
      .ok (done ++ (label ++ (room.drop label.length ++ third))) := by
    have shape : done ++ (room ++ third) =
        done ++ (room.take label.length ++ (room.drop label.length ++ third)) := by
      rw [← List.append_assoc (room.take label.length), cut]
    rw [shape]
    apply writeCells_append rfl
    rw [List.length_take]
    omega
  have counts : addInt done.length flag.toNat = .ok (done.length + flag.toNat) :=
    if_pos (by omega)
  rw [dnsParseName, first, Run.ok_bind, if_neg notZero, plain, if_neg Bool.false_ne_true, bytes,
    Run.ok_bind, writes, Run.ok_bind, counts, Run.ok_bind, behind, Run.ok_bind]
  unfold separator at same fits ⊢
  by_cases isEnd : ahead = 0
  · have nothing : room.drop label.length = [] := by
      apply List.drop_eq_nil_of_le
      rw [if_pos isEnd, List.length_nil] at same
      omega
    rw [if_neg (not_not_intro isEnd), if_pos isEnd, nothing, List.append_nil, List.nil_append,
      List.length_append, length, List.append_assoc]
  · have one : (room.drop label.length).length = [dot].length := by
      rw [if_neg isEnd] at same
      rw [List.length_drop]
      omega
    have separates : writeCells (done ++ (label ++ (room.drop label.length ++ third)))
        (done.length + flag.toNat) [dot] = .ok (done ++ label ++ ([dot] ++ third)) := by
      rw [← List.append_assoc done]
      apply writeCells_append _ one.symm
      rw [List.length_append, length]
    have countsDot : addInt (done.length + flag.toNat) 1 = .ok (done.length + flag.toNat + 1) := by
      apply if_pos
      rw [if_neg isEnd, List.length_singleton] at fits
      omega
    have grown : (done ++ (label ++ [dot])).length = done.length + flag.toNat + 1 := by
      rw [List.length_append, List.length_append, length, List.length_singleton]
      omega
    rw [if_pos isEnd, separates, Run.ok_bind, countsDot, Run.ok_bind, if_neg isEnd, grown]
    simp only [List.append_assoc]

end

/-- Where a text is spelled, the decoder writes it behind what is `done`; `*len` and
the position in `out` move together, and the rest of `out` stays as it is. -/
theorem dnsParseName_of_spells {chunk : List UInt8} {start : Nat} {text : List UInt8}
    (spells : Spells chunk start text) :
    ∃ steps, ∀ done middle back : List UInt8, middle.length = text.length →
      done.length + text.length < 2 ^ 31 → ∀ more, steps ≤ more →
        dnsParseName chunk more start done.length (done ++ (middle ++ back)) done.length =
          .ok (done ++ (text ++ back), done.length + text.length) := by
  induction spells with
  | root zero =>
      refine ⟨1, ?_⟩
      intro done middle back room fits more enough
      obtain ⟨more, rfl⟩ := Nat.exists_eq_add_of_le' enough
      obtain rfl : middle = [] := List.eq_nil_of_length_eq_zero room
      exact dnsParseName_end zero
  | pointer first marked second later inductionHypothesis =>
      obtain ⟨steps, runs⟩ := inductionHypothesis
      refine ⟨steps + 1, ?_⟩
      intro done middle back room fits more enough
      obtain ⟨more, rfl⟩ := Nat.exists_eq_add_of_le' (Nat.le_trans (Nat.le_add_left 1 steps) enough)
      rw [dnsParseName_pointer first marked second]
      exact runs done middle back room fits more (Nat.le_of_succ_le_succ enough)
  | @label start flag ahead label text first notZero plain bytes behind later inductionHypothesis =>
      obtain ⟨steps, runs⟩ := inductionHypothesis
      refine ⟨steps + 1, ?_⟩
      intro done middle back room fits more enough
      obtain ⟨more, rfl⟩ := Nat.exists_eq_add_of_le' (Nat.le_trans (Nat.le_add_left 1 steps) enough)
      rw [List.length_append] at room fits
      -- the memory for this label, and for the rest of the text
      have cut := List.take_append_drop (label ++ separator ahead).length middle
      have here : (middle.take (label ++ separator ahead).length).length =
          (label ++ separator ahead).length := by
        rw [List.length_take]
        omega
      have further : (middle.drop (label ++ separator ahead).length).length = text.length := by
        rw [List.length_drop]
        omega
      have grown : (done ++ (label ++ separator ahead)).length =
          done.length + (label ++ separator ahead).length := List.length_append
      have total : (label ++ separator ahead ++ text).length =
          (label ++ separator ahead).length + text.length := List.length_append
      rw [← cut, List.append_assoc (middle.take _),
        dnsParseName_label first notZero plain bytes behind here (by omega),
        runs _ _ back further (by omega) more (Nat.le_of_succ_le_succ enough), grown, total,
        Nat.add_assoc]
      simp only [List.append_assoc]

/-- In zeroed memory that is large enough the decoder leaves the text that is spelled. -/
theorem Spells.zeroed {chunk : List UInt8} {start space : Nat} {text : List UInt8}
    (spells : Spells chunk start text) (room : text.length ≤ space) (fits : text.length < 2 ^ 31) :
    ∃ steps, ∀ more, steps ≤ more →
      dnsParseName chunk more start 0 (List.replicate space 0) 0 =
        .ok (text ++ List.replicate (space - text.length) 0, text.length) := by
  have filled : ([] : List UInt8).length + text.length < 2 ^ 31 := by
    rw [List.length_nil, Nat.zero_add]
    exact fits
  obtain ⟨steps, runs⟩ := dnsParseName_of_spells spells
  have whole : List.replicate space (0 : UInt8) =
      List.replicate text.length 0 ++ List.replicate (space - text.length) 0 := by
    rw [← List.replicate_add, Nat.add_sub_of_le room]
  refine ⟨steps, ?_⟩
  intro more enough
  have result := runs [] (List.replicate text.length 0) (List.replicate (space - text.length) 0)
    List.length_replicate filled more enough
  rw [whole]
  simpa using result

/-- Where the decoder returns, a text is spelled that fits, and that is what it wrote.
By induction on the steps. -/
theorem spells_of_dnsParseName {chunk done back out : List UInt8} {steps start len : Nat}
    (runs : dnsParseName chunk steps start done.length (done ++ back) done.length = .ok (out, len)) :
    ∃ text, Spells chunk start text ∧ text.length ≤ back.length ∧
      (text ≠ [] → done.length + text.length < 2 ^ 31) ∧
      out = done ++ (text ++ back.drop text.length) ∧ len = done.length + text.length := by
  induction steps generalizing start done back with
  | zero => contradiction
  | succ steps inductionHypothesis =>
      have whole := runs
      rw [dnsParseName] at runs
      obtain ⟨flag, first, runs⟩ := Run.of_bind_ok runs
      split at runs
      · rename_i isZero
        obtain ⟨rfl, rfl⟩ := Prod.mk.inj (Except.ok.inj runs)
        exact ⟨[], .root (isZero ▸ first), Nat.zero_le _, fun some => absurd rfl some, rfl, rfl⟩
      · rename_i notZero
        split at runs
        · rename_i marked
          obtain ⟨low, second, runs⟩ := Run.of_bind_ok runs
          obtain ⟨text, spells, rest⟩ := inductionHypothesis runs
          exact ⟨text, .pointer first marked second spells, rest⟩
        · rename_i notPointer
          have plain : isPointer flag.toNat = false := by simpa using notPointer
          obtain ⟨label, bytes, runs⟩ := Run.of_bind_ok runs
          obtain ⟨next, writes, runs⟩ := Run.of_bind_ok runs
          obtain ⟨counted, counts, runs⟩ := Run.of_bind_ok runs
          obtain ⟨ahead, behind, runs⟩ := Run.of_bind_ok runs
          have length := length_of_readCells bytes
          have inside := (room_of_writeCells writes).1
          rw [List.length_append] at inside
          have labelFits : done.length + flag.toNat < 2 ^ 31 := by
            unfold addInt at counts
            split at counts
            · assumption
            · contradiction
          -- there is room for the separator too
          have both : (label ++ separator ahead).length ≤ back.length ∧
              done.length + (label ++ separator ahead).length < 2 ^ 31 := by
            unfold separator
            split at runs
            · rename_i goesOn
              obtain ⟨dotted, separates, runs⟩ := Run.of_bind_ok runs
              obtain ⟨recounted, countsDot, -⟩ := Run.of_bind_ok runs
              have insideDot := (room_of_writeCells separates).1
              have extent := (room_of_writeCells writes).2
              rw [extent, List.length_append, List.length_singleton] at insideDot
              have isCounted : counted = done.length + flag.toNat := by
                unfold addInt at counts
                rw [if_pos labelFits] at counts
                exact (Except.ok.inj counts).symm
              have dotFits : counted + 1 < 2 ^ 31 := by
                unfold addInt at countsDot
                split at countsDot
                · assumption
                · contradiction
              rw [if_neg goesOn, List.length_append, List.length_singleton]
              exact ⟨by omega, by omega⟩
            · rename_i ends
              rw [if_pos (not_not.mp ends), List.append_nil]
              exact ⟨by omega, by omega⟩
          have cut := List.take_append_drop (label ++ separator ahead).length back
          have here : (back.take (label ++ separator ahead).length).length =
              (label ++ separator ahead).length := by
            rw [List.length_take]
            omega
          rw [← cut, dnsParseName_label first notZero plain bytes behind here both.2] at whole
          obtain ⟨text, spells, fits, small, isOut, isLen⟩ := inductionHypothesis whole
          have total : (label ++ separator ahead ++ text).length =
              (label ++ separator ahead).length + text.length := List.length_append
          have grown : (done ++ (label ++ separator ahead)).length =
              done.length + (label ++ separator ahead).length := List.length_append
          rw [List.length_drop] at fits
          rw [grown] at small isLen
          refine ⟨label ++ separator ahead ++ text,
            .label first notZero plain bytes behind spells, ?_, ?_, ?_, ?_⟩
          · rw [total]
            omega
          · intro _
            rw [total, ← Nat.add_assoc]
            by_cases isEmpty : text = []
            · rw [isEmpty]
              exact both.2
            · exact small isEmpty
          · rw [isOut, List.drop_drop, total]
            simp only [List.append_assoc]
          · rw [isLen, total, Nat.add_assoc]

end SimpleBasicComponents.DnsClient
