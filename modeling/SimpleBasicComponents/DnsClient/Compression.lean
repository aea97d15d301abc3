import SimpleBasicComponents.DnsClient.Names

/-!
Compressed names.

Owns: the names of RFC 1035 with pointers of 14 bits, and the exact condition under
which `dns_parse_name`, which takes the offset of a pointer from its second byte
alone, decodes such a name.
-/

namespace SimpleBasicComponents.DnsClient

open SimpleBasicComponents.Semantics

/-- A name stands at the offset: labels, then a zero byte or a pointer to a name of at
least one label that stands further ahead. -/
inductive CompressedAt (buffer : List UInt8) : Nat → List (List UInt8) → Prop
  | root {start : Nat} (zero : readCell buffer start = .ok 0) : CompressedAt buffer start []
  | label {start : Nat} {label : List UInt8} {rest : List (List UInt8)} (valid : ValidLabel label)
      (length : readCell buffer start = .ok (UInt8.ofNat label.length))
      (bytes : readCells buffer (start + 1) label.length = .ok label)
      (later : CompressedAt buffer (start + 1 + label.length) rest) :
      CompressedAt buffer start (label :: rest)
  | pointer {start : Nat} {high low : UInt8} {labels : List (List UInt8)}
      (marked : 0xC0 ≤ high.toNat) (first : readCell buffer start = .ok high)
      (second : readCell buffer (start + 1) = .ok low)
      (back : (high.toNat - 0xC0) * 256 + low.toNat < start) (nonempty : labels ≠ [])
      (later : CompressedAt buffer ((high.toNat - 0xC0) * 256 + low.toNat) labels) :
      CompressedAt buffer start labels

/-- With output that is large enough and zeroed, the decoder gives the labels joined
by dots, and their length. -/
def DecodesName (buffer : List UInt8) (start : Nat) (labels : List (List UInt8)) : Prop :=
  ∀ space, (joinDots labels).length < space → ∃ steps, ∀ more, steps ≤ more →
    dnsParseName buffer more start 0 (List.replicate space 0) 0 =
      .ok (joinDots labels ++ List.replicate (space - (joinDots labels).length) 0,
        (joinDots labels).length)

/-- The way of the decoder through the name: at a pointer with an offset of 256 or
more it comes to another place, where the rest of the name has to be spelled too. -/
inductive Followed (buffer : List UInt8) : Nat → List (List UInt8) → Prop
  | root {start : Nat} (zero : readCell buffer start = .ok 0) : Followed buffer start []
  | label {start : Nat} {label : List UInt8} {rest : List (List UInt8)} (valid : ValidLabel label)
      (length : readCell buffer start = .ok (UInt8.ofNat label.length))
      (later : Followed buffer (start + 1 + label.length) rest) :
      Followed buffer start (label :: rest)
  | near {start : Nat} {low : UInt8} {labels : List (List UInt8)}
      (first : readCell buffer start = .ok 0xC0) (second : readCell buffer (start + 1) = .ok low)
      (later : Followed buffer low.toNat labels) : Followed buffer start labels
  | far {start : Nat} {high low : UInt8} {labels : List (List UInt8)} (beyond : 0xC0 < high.toNat)
      (first : readCell buffer start = .ok high) (second : readCell buffer (start + 1) = .ok low)
      (coincides : Spells buffer low.toNat (joinDots labels)) : Followed buffer start labels

section

variable {buffer : List UInt8} {start : Nat} {labels : List (List UInt8)}

/-- What follows a label tells whether there are more. -/
theorem CompressedAt.ahead (stands : CompressedAt buffer start labels) :
    ∃ ahead, readCell buffer start = .ok ahead ∧ (ahead = 0 ↔ labels = []) := by
  cases stands with
  | root zero => exact ⟨0, zero, by simp⟩
  | label valid length => exact ⟨_, length, by simp [ofNat_length_ne_zero valid]⟩
  | @pointer _ high _ _ marked first _ _ nonempty =>
      refine ⟨high, first, ?_⟩
      have notZero : high ≠ 0 := marked_ne_zero ((isPointer_iff high).mpr marked)
      simp [notZero, nonempty]

theorem joinDots_cons {ahead : UInt8} {label : List UInt8} {rest : List (List UInt8)}
    (isLast : ahead = 0 ↔ rest = []) :
    joinDots (label :: rest) = label ++ separator ahead ++ joinDots rest := by
  unfold separator
  cases rest with
  | nil => simp [joinDots, isLast]
  | cons next rest => simp [joinDots, isLast]

/-- At the bytes of a label the decoder reads the label. -/
theorem spells_label_iff {label text : List UInt8} {ahead : UInt8} (valid : ValidLabel label)
    (length : readCell buffer start = .ok (UInt8.ofNat label.length))
    (bytes : readCells buffer (start + 1) label.length = .ok label)
    (behind : readCell buffer (start + 1 + label.length) = .ok ahead) :
    Spells buffer start (label ++ separator ahead ++ text) ↔
      Spells buffer (start + 1 + label.length) text := by
  have notZero := ofNat_length_ne_zero valid
  have same := toNat_length valid
  have plain : isPointer (UInt8.ofNat label.length).toNat = false := by
    rw [same]
    exact isPointer_label valid.2
  constructor
  · intro spells
    generalize whole : label ++ separator ahead ++ text = all at spells
    cases spells with
    | root zero =>
        rw [length] at zero
        exact absurd (Except.ok.inj zero) notZero
    | pointer first marked =>
        rw [length] at first
        rw [← Except.ok.inj first, plain] at marked
        contradiction
    | @label _ flag other found spelled first _ _ reads ends later =>
        rw [length] at first
        obtain rfl := Except.ok.inj first
        rw [same] at reads ends later
        rw [bytes] at reads
        obtain rfl := Except.ok.inj reads
        rw [behind] at ends
        obtain rfl := Except.ok.inj ends
        rw [List.append_cancel_left whole]
        exact later
  · intro later
    rw [← same] at bytes behind later
    exact .label length notZero plain bytes behind later

/-- At a pointer the decoder goes on at its second byte. -/
theorem spells_pointer_iff {high low : UInt8} {text : List UInt8} (marked : 0xC0 ≤ high.toNat)
    (first : readCell buffer start = .ok high) (second : readCell buffer (start + 1) = .ok low) :
    Spells buffer start text ↔ Spells buffer low.toNat text := by
  have isMarked := (isPointer_iff high).mpr marked
  constructor
  · intro spells
    cases spells with
    | root zero =>
        rw [first] at zero
        exact absurd (Except.ok.inj zero) (marked_ne_zero isMarked)
    | pointer sameFirst _ sameSecond later =>
        rw [second] at sameSecond
        obtain rfl := Except.ok.inj sameSecond
        exact later
    | label sameFirst _ plain =>
        rw [first] at sameFirst
        rw [← Except.ok.inj sameFirst, isMarked] at plain
        contradiction
  · intro later
    exact .pointer first isMarked second later

/-- The way at a pointer to a name of at least one label. -/
theorem followed_pointer_iff {high low : UInt8} (marked : 0xC0 ≤ high.toNat)
    (first : readCell buffer start = .ok high) (second : readCell buffer (start + 1) = .ok low)
    (nonempty : labels ≠ []) :
    Followed buffer start labels ↔
      if high = 0xC0 then Followed buffer low.toNat labels
      else Spells buffer low.toNat (joinDots labels) := by
  constructor
  · intro followed
    cases followed with
    | root => contradiction
    | label valid length =>
        rw [first] at length
        have same := toNat_length valid
        have small := valid.2
        rw [← Except.ok.inj length] at same
        omega
    | near sameFirst sameSecond later =>
        rw [first] at sameFirst
        rw [second] at sameSecond
        obtain rfl := Except.ok.inj sameSecond
        rw [if_pos (Except.ok.inj sameFirst)]
        exact later
    | far beyond sameFirst sameSecond coincides =>
        rw [first] at sameFirst
        rw [second] at sameSecond
        obtain rfl := Except.ok.inj sameFirst
        obtain rfl := Except.ok.inj sameSecond
        have different : high ≠ 0xC0 := by
          rintro rfl
          exact absurd beyond (by decide)
        rw [if_neg different]
        exact coincides
  · intro goesOn
    split at goesOn
    · rename_i isNear
      exact .near (isNear ▸ first) second goesOn
    · rename_i different
      have beyond : 0xC0 < high.toNat := by
        have notSame : high.toNat ≠ 0xC0 := fun same => different (UInt8.toNat_inj.mp same)
        omega
      exact .far beyond first second goesOn

/-- The bytes of a name spell it exactly where the decoder finds its way. By induction
on how the name stands. -/
theorem CompressedAt.spells_iff_followed (stands : CompressedAt buffer start labels) :
    Spells buffer start (joinDots labels) ↔ Followed buffer start labels := by
  induction stands with
  | root zero =>
      constructor
      · intro _
        exact .root zero
      · intro _
        exact .root zero
  | @label start label rest valid length bytes later inductionHypothesis =>
      obtain ⟨ahead, behind, isLast⟩ := later.ahead
      rw [joinDots_cons isLast, spells_label_iff valid length bytes behind, inductionHypothesis]
      have same := toNat_length valid
      have small := valid.2
      constructor
      · intro followed
        exact .label valid length followed
      · intro followed
        cases followed with
        | label _ _ followedRest => exact followedRest
        | near first =>
            rw [length] at first
            rw [Except.ok.inj first] at same
            have big : (0xC0 : UInt8).toNat = 192 := rfl
            omega
        | far beyond first =>
            rw [length] at first
            rw [Except.ok.inj first] at same
            omega
  | @pointer start high low labels marked first second back nonempty later inductionHypothesis =>
      rw [spells_pointer_iff marked first second,
        followed_pointer_iff marked first second nonempty]
      split
      · rename_i isNear
        have offset : (high.toNat - 0xC0) * 256 + low.toNat = low.toNat := by
          rw [isNear]
          show (192 - 192) * 256 + low.toNat = low.toNat
          omega
        rw [offset] at inductionHypothesis
        exact inductionHypothesis
      · exact Iff.rfl

/-- A compressed name is decoded right exactly when the decoder finds its way, and the
length of its text fits an `int`. -/
theorem decodesName_iff_followed (stands : CompressedAt buffer start labels) :
    DecodesName buffer start labels ↔
      Followed buffer start labels ∧ (joinDots labels).length < 2 ^ 31 := by
  rw [← stands.spells_iff_followed]
  constructor
  · intro decodes
    obtain ⟨steps, runs⟩ := decodes ((joinDots labels).length + 1) (Nat.lt_succ_self _)
    have result := runs steps (Nat.le_refl steps)
    obtain ⟨text, spells, room, small, isOut, isLen⟩ :=
      @spells_of_dnsParseName _ [] _ _ _ _ _ result
    rw [List.length_nil, Nat.zero_add] at isLen small
    rw [List.nil_append] at isOut
    have isText : text = joinDots labels := (List.append_inj isOut isLen).1.symm
    rw [isText] at spells small
    refine ⟨spells, ?_⟩
    by_cases isEmpty : joinDots labels = []
    · rw [isEmpty]
      decide
    · exact small isEmpty
  · rintro ⟨spells, fits⟩ space room
    exact spells.zeroed (Nat.le_of_lt room) fits

end

/-- A name that ends in a pointer to an earlier one. -/
def sharedSuffix : List UInt8 :=
  List.replicate 12 0 ++ [1, 98, 0] ++ [1, 97, 0xC0, 12]

theorem sharedSuffix_decoded : DecodesName sharedSuffix 15 [[97], [98]] := by
  have target : CompressedAt sharedSuffix 12 [[98]] :=
    .label ⟨by decide, by decide⟩ rfl rfl (.root rfl)
  have stands : CompressedAt sharedSuffix 15 [[97], [98]] :=
    .label ⟨by decide, by decide⟩ rfl rfl (.pointer (by decide) rfl rfl (by decide) (by simp) target)
  have followed : Followed sharedSuffix 15 [[97], [98]] :=
    .label ⟨by decide, by decide⟩ rfl (.near rfl rfl (.label ⟨by decide, by decide⟩ rfl (.root rfl)))
  exact (decodesName_iff_followed stands).mpr ⟨followed, by decide⟩

/-- A name at offset 256, and a pointer to it. -/
def farSuffix : List UInt8 := List.replicate 256 0 ++ [1, 97, 0] ++ [0xC1, 0]

/-- The decoder goes to offset 0, where the empty name stands. -/
theorem farSuffix_not_decoded :
    CompressedAt farSuffix 259 [[97]] ∧ ¬ DecodesName farSuffix 259 [[97]] := by
  constructor
  · have bytes : readCells farSuffix 257 1 = .ok [97] := by decide +kernel
    have target : CompressedAt farSuffix 256 [[97]] :=
      .label ⟨by decide, by decide⟩ rfl bytes (.root rfl)
    exact .pointer (by decide) rfl rfl (by decide) (by simp) target
  · intro decodes
    obtain ⟨steps, runs⟩ := decodes 2 (by decide)
    have result := runs (steps + 1 + 1) (by omega)
    have first : readCell farSuffix 259 = .ok 0xC1 := rfl
    have second : readCell farSuffix 260 = .ok 0 := rfl
    have zero : readCell farSuffix (0 : UInt8).toNat = .ok 0 := rfl
    rw [dnsParseName_pointer first (by decide) second, dnsParseName_end zero] at result
    exact absurd (Prod.mk.inj (Except.ok.inj result)).2 (by decide)

end SimpleBasicComponents.DnsClient
