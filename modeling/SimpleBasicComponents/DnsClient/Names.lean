import SimpleBasicComponents.DnsClient.Spelling

/-!
Names of the DNS and what `dns_parse_name` makes of them.

Owns: the text of a name, its encoding without pointers, the names that the
decoder reads right, and what it writes for these.
-/

namespace SimpleBasicComponents.DnsClient

open SimpleBasicComponents.Semantics

/-- The labels joined by single dots. -/
def joinDots : List (List UInt8) → List UInt8
  | [] => []
  | [label] => label
  | label :: next :: rest => label ++ dot :: joinDots (next :: rest)

/-- Each label behind its length, and a zero byte. -/
def encodeLabels : List (List UInt8) → List UInt8
  | [] => [0]
  | label :: rest => UInt8.ofNat label.length :: (label ++ encodeLabels rest)

/-- A label has 1 to 63 bytes. -/
def ValidLabel (label : List UInt8) : Prop := 1 ≤ label.length ∧ label.length ≤ 63

theorem length_encodeLabels {labels : List (List UInt8)} (nonempty : labels ≠ []) :
    (encodeLabels labels).length = (joinDots labels).length + 2 := by
  induction labels with
  | nil => contradiction
  | cons label rest inductionHypothesis =>
      cases rest with
      | nil => simp [encodeLabels, joinDots]
      | cons next rest =>
          have later := inductionHypothesis (by simp)
          show (UInt8.ofNat label.length :: (label ++ encodeLabels (next :: rest))).length = _
          rw [List.length_cons, List.length_append, later]
          show _ = (label ++ dot :: joinDots (next :: rest)).length + 2
          rw [List.length_append, List.length_cons]
          omega

theorem toNat_length {label : List UInt8} (valid : ValidLabel label) :
    (UInt8.ofNat label.length).toNat = label.length := by
  have bound := valid.2
  rw [UInt8.toNat_ofNat']
  omega

theorem ofNat_length_ne_zero {label : List UInt8} (valid : ValidLabel label) :
    UInt8.ofNat label.length ≠ 0 := by
  intro zero
  have same := toNat_length valid
  have positive := valid.1
  rw [zero] at same
  have none : label.length = 0 := same.symm
  omega

theorem isPointer_label {n : Nat} (small : n ≤ 63) : isPointer n = false := by
  have below : n &&& 0xC0 ≤ n := Nat.and_le_left
  unfold isPointer
  rw [decide_eq_false_iff_not]
  omega

/-! ### Names that are read right -/

/-- The bytes at the offset are the labels, in a form that `dns_parse_name` reads
as such: the offset of a pointer fits its second byte, and behind a label stands
no pointer to the empty name. -/
inductive PlainName (chunk : List UInt8) : Nat → List (List UInt8) → Prop
  | root {start : Nat} (zero : readCell chunk start = .ok 0) : PlainName chunk start []
  | label {start : Nat} {label : List UInt8} {rest : List (List UInt8)} (valid : ValidLabel label)
      (length : readCell chunk start = .ok (UInt8.ofNat label.length))
      (bytes : readCells chunk (start + 1) label.length = .ok label)
      (atEnd : rest = [] → readCell chunk (start + 1 + label.length) = .ok 0)
      (later : PlainName chunk (start + 1 + label.length) rest) :
      PlainName chunk start (label :: rest)
  | pointer {start : Nat} {low : UInt8} {labels : List (List UInt8)}
      (high : readCell chunk start = .ok 0xC0) (offset : readCell chunk (start + 1) = .ok low)
      (later : PlainName chunk low.toNat labels) : PlainName chunk start labels

/-- The bytes from the first offset up to the second are the labels without pointers. -/
inductive LabelsAt (chunk : List UInt8) : Nat → List (List UInt8) → Nat → Prop
  | root {start : Nat} (zero : readCell chunk start = .ok 0) : LabelsAt chunk start [] (start + 1)
  | label {start stop : Nat} {label : List UInt8} {rest : List (List UInt8)}
      (valid : ValidLabel label) (length : readCell chunk start = .ok (UInt8.ofNat label.length))
      (bytes : readCells chunk (start + 1) label.length = .ok label)
      (later : LabelsAt chunk (start + 1 + label.length) rest stop) :
      LabelsAt chunk start (label :: rest) stop

theorem LabelsAt.plainName {chunk : List UInt8} {start stop : Nat} {labels : List (List UInt8)}
    (stands : LabelsAt chunk start labels stop) : PlainName chunk start labels := by
  induction stands with
  | root zero => exact .root zero
  | label valid length bytes later inductionHypothesis =>
      refine .label valid length bytes ?_ inductionHypothesis
      intro isLast
      subst isLast
      cases later with
      | root zero => exact zero

theorem labelsAt_encodeLabels {labels : List (List UInt8)}
    (valid : ∀ label ∈ labels, ValidLabel label) (front back : List UInt8) :
    LabelsAt (front ++ (encodeLabels labels ++ back)) front.length labels
      (front.length + (encodeLabels labels).length) := by
  induction labels generalizing front with
  | nil => exact .root (readCell_append rfl)
  | cons label rest inductionHypothesis =>
      have later := inductionHypothesis (fun other member => valid other (List.mem_cons_of_mem _ member))
        (front ++ UInt8.ofNat label.length :: label)
      have behind : front ++ (encodeLabels (label :: rest) ++ back) =
          (front ++ UInt8.ofNat label.length :: label) ++ (encodeLabels rest ++ back) := by
        simp [encodeLabels]
      have split : front ++ (encodeLabels (label :: rest) ++ back) =
          (front ++ [UInt8.ofNat label.length]) ++ (label ++ (encodeLabels rest ++ back)) := by
        simp [encodeLabels]
      have next : (front ++ UInt8.ofNat label.length :: label).length =
          front.length + 1 + label.length := by
        rw [List.length_append, List.length_cons]
        omega
      have stop : front.length + (encodeLabels (label :: rest)).length =
          front.length + 1 + label.length + (encodeLabels rest).length := by
        show front.length + (UInt8.ofNat label.length :: (label ++ encodeLabels rest)).length = _
        rw [List.length_cons, List.length_append]
        omega
      rw [← behind, next, ← stop] at later
      refine .label (valid label List.mem_cons_self) (readCell_append rfl) ?_ later
      rw [split]
      exact readCells_append (by simp) rfl

/-- The inner loop over a question stops behind a name without pointers. -/
theorem skipName_of_labelsAt {chunk : List UInt8} {start stop : Nat} {labels : List (List UInt8)}
    (stands : LabelsAt chunk start labels stop) {steps : Nat} (enough : labels.length < steps) :
    skipName chunk steps start = .ok stop := by
  induction stands generalizing steps with
  | root zero =>
      obtain ⟨steps, rfl⟩ := Nat.exists_eq_add_of_le' (Nat.succ_le_of_lt enough)
      simp only [skipName, zero, bind, Except.bind]
      rfl
  | @label start stop label rest valid length bytes later inductionHypothesis =>
      obtain ⟨steps, rfl⟩ := Nat.exists_eq_add_of_le' (Nat.succ_le_of_lt (Nat.zero_lt_of_lt enough))
      have same := toNat_length valid
      have notZero := ofNat_length_ne_zero valid
      have further : start + (label.length + 1) = start + 1 + label.length := by omega
      simp only [skipName, length, bind, Except.bind, notZero, if_false, same, further]
      exact inductionHypothesis (Nat.lt_of_succ_lt_succ enough)

/-- The first byte of a name with a label left is not zero. -/
private theorem ahead_ne_zero {chunk : List UInt8} {start : Nat} {labels : List (List UInt8)}
    (plain : PlainName chunk start labels) (more : labels ≠ []) :
    ∃ ahead, readCell chunk start = .ok ahead ∧ ahead ≠ 0 := by
  cases plain with
  | root => contradiction
  | @label _ label rest valid length =>
      exact ⟨_, length, ofNat_length_ne_zero valid⟩
  | pointer high => exact ⟨_, high, by decide⟩

/-- A name that is read right spells its text. -/
theorem PlainName.spells {chunk : List UInt8} {start : Nat} {labels : List (List UInt8)}
    (plain : PlainName chunk start labels) : Spells chunk start (joinDots labels) := by
  induction plain with
  | root zero => exact .root zero
  | pointer high offset later inductionHypothesis =>
      exact .pointer high (by decide) offset inductionHypothesis
  | @label start label rest valid length bytes atEnd later inductionHypothesis =>
      have notZero := ofNat_length_ne_zero valid
      have same := toNat_length valid
      have notPointer : isPointer (UInt8.ofNat label.length).toNat = false := by
        rw [same]
        exact isPointer_label valid.2
      rw [← same] at bytes atEnd later inductionHypothesis
      cases rest with
      | nil =>
          have text : joinDots [label] = label ++ separator 0 ++ joinDots [] := by
            simp [joinDots, separator]
          rw [text]
          exact .label length notZero notPointer bytes (atEnd rfl) inductionHypothesis
      | cons next rest =>
          obtain ⟨ahead, goesOn, notEnd⟩ := ahead_ne_zero later (by simp)
          have text : joinDots (label :: next :: rest) =
              label ++ separator ahead ++ joinDots (next :: rest) := by
            unfold separator
            rw [if_neg notEnd]
            simp [joinDots]
          rw [text]
          exact .label length notZero notPointer bytes goesOn inductionHypothesis

/-! ### More steps -/

section

variable {chunk : List UInt8} {steps more : Nat}

/-- More steps do not change what is decoded. -/
theorem dnsParseName_settles (enough : steps ≤ more) (ptr pos : Nat) (out : List UInt8) (len : Nat) :
    Run.Settles (dnsParseName chunk steps ptr pos out len)
      (dnsParseName chunk more ptr pos out len) := by
  induction steps generalizing more ptr pos out len with
  | zero => exact .inl rfl
  | succ steps inductionHypothesis =>
      obtain ⟨more, rfl⟩ := Nat.exists_eq_add_of_le' (Nat.le_trans (Nat.le_add_left 1 steps) enough)
      have fewer := Nat.le_of_succ_le_succ enough
      rw [dnsParseName, dnsParseName]
      apply (Run.Settles.refl _).bind
      intro flag
      split
      · exact .refl _
      · split
        · apply (Run.Settles.refl _).bind
          intro low
          exact inductionHypothesis fewer _ _ _ _
        · apply (Run.Settles.refl _).bind
          intro label
          apply (Run.Settles.refl _).bind
          intro written
          apply (Run.Settles.refl _).bind
          intro counted
          apply (Run.Settles.refl _).bind
          intro ahead
          split
          · apply (Run.Settles.refl _).bind
            intro dotted
            apply (Run.Settles.refl _).bind
            intro recounted
            exact inductionHypothesis fewer _ _ _ _
          · exact inductionHypothesis fewer _ _ _ _

theorem skipName_settles (enough : steps ≤ more) (ptr : Nat) :
    Run.Settles (skipName chunk steps ptr) (skipName chunk more ptr) := by
  induction steps generalizing more ptr with
  | zero => exact .inl rfl
  | succ steps inductionHypothesis =>
      obtain ⟨more, rfl⟩ := Nat.exists_eq_add_of_le' (Nat.le_trans (Nat.le_add_left 1 steps) enough)
      rw [skipName, skipName]
      apply (Run.Settles.refl _).bind
      intro flag
      split
      · exact .refl _
      · exact inductionHypothesis (Nat.le_of_succ_le_succ enough) _

end

end SimpleBasicComponents.DnsClient
