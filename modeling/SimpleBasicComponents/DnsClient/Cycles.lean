import SimpleBasicComponents.DnsClient.Spelling
import SimpleBasicComponents.Semantics.Acyclic

/-!
When `dns_parse_name` returns.

Owns: where the loop goes on from an offset, the proof that it returns exactly when
on its way it stays in the message and comes to no offset twice, and a pointer to
itself.
-/

namespace SimpleBasicComponents.DnsClient

open SimpleBasicComponents.Semantics
open Relation

/-- Where the loop goes on after the byte at the offset. -/
def goesOnAt (chunk : List UInt8) (ptr : Nat) : Option Nat :=
  match chunk[ptr]? with
  | none => none
  | some flag =>
      if flag = 0 then none
      else if isPointer flag.toNat then (chunk[ptr + 1]?).map UInt8.toNat
      else some (ptr + 1 + flag.toNat)

/-- The loop goes on from the one offset to the other. -/
def Leads (chunk : List UInt8) (ptr next : Nat) : Prop := goesOnAt chunk ptr = some next

/-- The byte at the offset is in the message, and with a pointer the next one is. -/
def InMessage (chunk : List UInt8) (ptr : Nat) : Prop :=
  ∃ flag, chunk[ptr]? = some flag ∧ (isPointer flag.toNat = true → ptr + 1 < chunk.length)

/-- With output that is large enough, the decoder returns after some number of steps. -/
def Returns (chunk : List UInt8) (start : Nat) : Prop :=
  ∃ steps space, ∀ out : List UInt8, space ≤ out.length →
    ∃ result, dnsParseName chunk steps start 0 out 0 = .ok result

section

variable {chunk text : List UInt8} {start : Nat}

theorem leads_pointer {flag low : UInt8} (first : readCell chunk start = .ok flag)
    (marked : isPointer flag.toNat = true) (second : readCell chunk (start + 1) = .ok low) :
    Leads chunk start low.toNat := by
  rw [readCell_ok_iff] at first second
  unfold Leads goesOnAt
  rw [first]
  simp only [if_neg (marked_ne_zero marked), if_pos marked, second, Option.map_some]

theorem leads_label {flag : UInt8} (first : readCell chunk start = .ok flag) (notZero : flag ≠ 0)
    (plain : isPointer flag.toNat = false) : Leads chunk start (start + 1 + flag.toNat) := by
  rw [readCell_ok_iff] at first
  unfold Leads goesOnAt
  rw [first]
  simp only [if_neg notZero, plain, if_neg Bool.false_ne_true]

theorem leads_functional {next other : Nat} (one : Leads chunk start next)
    (another : Leads chunk start other) : next = other :=
  Option.some.inj (one.symm.trans another)

theorem not_leads_root {next : Nat} (zero : readCell chunk start = .ok 0) :
    ¬ Leads chunk start next := by
  rw [readCell_ok_iff] at zero
  unfold Leads goesOnAt
  rw [zero]
  simp

/-- What holds along the way holds where it starts and along the rest of it. -/
theorem forall_reach_iff {property : Nat → Prop} {next : Nat} (step : Leads chunk start next) :
    (∀ ptr ∈ reach (Leads chunk) start, property ptr) ↔
      property start ∧ ∀ ptr ∈ reach (Leads chunk) next, property ptr := by
  constructor
  · intro all
    exact ⟨all start .refl, fun ptr reached => all ptr (.head step reached)⟩
  · rintro ⟨here, later⟩ ptr reached
    cases reached.cases_head with
    | inl same => exact same ▸ here
    | inr further =>
        obtain ⟨other, first, rest⟩ := further
        obtain rfl := leads_functional step first
        exact later ptr rest

/-- A way on which a text is spelled stays in the message and ends. -/
theorem Spells.way (spells : Spells chunk start text) :
    (∀ ptr ∈ reach (Leads chunk) start, InMessage chunk ptr) ∧
      Acc (fun next ptr => Leads chunk ptr next) start := by
  induction spells with
  | root zero =>
      constructor
      · intro ptr reached
        cases reached.cases_head with
        | inl same =>
            subst same
            exact ⟨0, readCell_ok_iff.mp zero, fun marked => absurd marked (by decide)⟩
        | inr further =>
            obtain ⟨other, first, -⟩ := further
            exact absurd first (not_leads_root zero)
      · exact ⟨_, fun next step => absurd step (not_leads_root zero)⟩
  | pointer first marked second later inductionHypothesis =>
      have step := leads_pointer first marked second
      have below := (List.getElem?_eq_some_iff.mp (readCell_ok_iff.mp second)).1
      rw [forall_reach_iff step]
      refine ⟨⟨⟨_, readCell_ok_iff.mp first, fun _ => below⟩, inductionHypothesis.1⟩, _, ?_⟩
      intro next other
      exact leads_functional step other ▸ inductionHypothesis.2
  | label first notZero plain bytes behind later inductionHypothesis =>
      have step := leads_label first notZero plain
      rw [forall_reach_iff step]
      refine ⟨⟨⟨_, readCell_ok_iff.mp first, ?_⟩, inductionHypothesis.1⟩, _, ?_⟩
      · intro marked
        rw [plain] at marked
        contradiction
      · intro next other
        exact leads_functional step other ▸ inductionHypothesis.2

/-- A way that stays in the message and ends spells a text. -/
theorem exists_spells (inside : ∀ ptr ∈ reach (Leads chunk) start, InMessage chunk ptr)
    (ends : Acc (fun next ptr => Leads chunk ptr next) start) : ∃ text, Spells chunk start text := by
  induction ends with
  | intro start _ inductionHypothesis =>
      obtain ⟨flag, here, second⟩ := inside start .refl
      have first : readCell chunk start = .ok flag := readCell_ok_iff.mpr here
      by_cases isZero : flag = 0
      · exact ⟨[], .root (isZero ▸ first)⟩
      · cases marked : isPointer flag.toNat with
        | true =>
            have below := second marked
            have low : readCell chunk (start + 1) = .ok chunk[start + 1] :=
              readCell_ok_iff.mpr (List.getElem?_eq_getElem below)
            have step := leads_pointer first marked low
            obtain ⟨text, spells⟩ :=
              inductionHypothesis _ step ((forall_reach_iff step).mp inside).2
            exact ⟨text, .pointer first marked low spells⟩
        | false =>
            have step := leads_label first isZero marked
            obtain ⟨text, spells⟩ :=
              inductionHypothesis _ step ((forall_reach_iff step).mp inside).2
            obtain ⟨ahead, there, -⟩ := inside _ (.single step)
            have below := (List.getElem?_eq_some_iff.mp there).1
            have bytes : readCells chunk (start + 1) flag.toNat =
                .ok ((chunk.drop (start + 1)).take flag.toNat) :=
              readCells_ok_iff.mpr ⟨Nat.le_of_lt below, rfl⟩
            exact ⟨_, .label first isZero marked bytes (readCell_ok_iff.mpr there) spells⟩

/-- The offsets on the way are in the message. -/
theorem reach_finite (inside : ∀ ptr ∈ reach (Leads chunk) start, InMessage chunk ptr) :
    (reach (Leads chunk) start).Finite ∧ (reach (Leads chunk) start).ncard ≤ chunk.length := by
  have within : reach (Leads chunk) start ⊆ (Finset.range chunk.length : Set Nat) := by
    intro ptr reached
    obtain ⟨flag, here, -⟩ := inside ptr reached
    exact Finset.mem_coe.mpr (Finset.mem_range.mpr (List.getElem?_eq_some_iff.mp here).1)
  have few := Set.ncard_le_ncard within (Finset.finite_toSet _)
  rw [Set.ncard_coe_finset, Finset.card_range] at few
  exact ⟨(Finset.finite_toSet _).subset within, few⟩

/-- Each step writes 192 bytes at most. -/
theorem Spells.length_le (spells : Spells chunk start text) :
    text.length ≤ 192 * (reach (Leads chunk) start).ncard := by
  have way := spells.way
  have finite := (reach_finite way.1).1
  have acyclic := acyclic_of_acc way.2
  induction spells with
  | root zero => exact Nat.zero_le _
  | @pointer start flag low text first marked second later inductionHypothesis =>
      have step := leads_pointer first marked second
      have fewer := reach_ncard_lt finite acyclic step
      have rest := inductionHypothesis later.way (finite.subset (reach_step_subset step))
        (acyclic.step step)
      omega
  | @label start flag ahead label text first notZero plain bytes behind later inductionHypothesis =>
      have step := leads_label first notZero plain
      have fewer := reach_ncard_lt finite acyclic step
      have rest := inductionHypothesis later.way (finite.subset (reach_step_subset step))
        (acyclic.step step)
      have length := length_of_readCells bytes
      have small : flag.toNat < 192 := by
        by_contra large
        rw [(isPointer_iff flag).mpr (Nat.le_of_not_lt large)] at plain
        contradiction
      have atMostOne : (separator ahead).length ≤ 1 := by
        unfold separator
        split
        · exact Nat.zero_le 1
        · exact Nat.le_refl 1
      rw [List.length_append, List.length_append]
      omega

theorem Spells.returns (spells : Spells chunk start text) (fits : text.length < 2 ^ 31) :
    Returns chunk start := by
  obtain ⟨steps, runs⟩ := dnsParseName_of_spells spells
  refine ⟨steps, text.length, ?_⟩
  intro out room
  have filled : ([] : List UInt8).length + text.length < 2 ^ 31 := by
    rw [List.length_nil, Nat.zero_add]
    exact fits
  have result := runs [] (out.take text.length) (out.drop text.length)
    (List.length_take_of_le room) filled steps (Nat.le_refl steps)
  rw [List.take_append_drop] at result
  exact ⟨_, result⟩

theorem exists_spells_of_returns (returns : Returns chunk start) :
    ∃ text, Spells chunk start text := by
  obtain ⟨steps, space, runs⟩ := returns
  obtain ⟨⟨out, len⟩, result⟩ := runs (List.replicate space 0) (by simp)
  obtain ⟨text, spells, -⟩ := @spells_of_dnsParseName chunk [] _ _ _ _ _ result
  exact ⟨text, spells⟩

/-- In a message of 1024 bytes the decoder returns exactly when on its way it stays in
the message and no offset leads back to itself. -/
theorem returns_iff_acyclic (size : chunk.length = 1024) :
    Returns chunk start ↔
      (∀ ptr ∈ reach (Leads chunk) start, InMessage chunk ptr) ∧
        Acyclic (Leads chunk) start := by
  constructor
  · intro returns
    obtain ⟨text, spells⟩ := exists_spells_of_returns returns
    exact ⟨spells.way.1, acyclic_of_acc spells.way.2⟩
  · rintro ⟨inside, acyclic⟩
    obtain ⟨finite, few⟩ := reach_finite inside
    obtain ⟨text, spells⟩ := exists_spells inside (acc_of_acyclic finite acyclic)
    have short := spells.length_le
    exact spells.returns (by omega)

end

/-- A label and an end. -/
def oneLabel : List UInt8 := 1 :: 97 :: List.replicate 1022 0

theorem oneLabel_returns : Returns oneLabel 0 := by
  have bytes : readCells oneLabel 1 1 = .ok [97] := by decide +kernel
  have zero : readCell oneLabel 2 = .ok 0 := rfl
  have spells : Spells oneLabel 0 ([97] ++ separator 0 ++ []) :=
    .label rfl (by decide) (by decide) bytes zero (.root zero)
  have size : oneLabel.length = 1024 := by
    rw [oneLabel, List.length_cons, List.length_cons, List.length_replicate]
  exact (returns_iff_acyclic size).mpr ⟨spells.way.1, acyclic_of_acc spells.way.2⟩

/-- A pointer to itself. -/
def selfPointer : List UInt8 := 0xC0 :: List.replicate 1023 0

/-- The calls for a pointer to itself do not end. -/
theorem selfPointer_unfinished :
    selfPointer.length = 1024 ∧
      (∀ steps pos out len,
        dnsParseName selfPointer steps 0 pos out len = .error .unfinished) ∧
      ¬ Returns selfPointer 0 := by
  have first : readCell selfPointer 0 = .ok 0xC0 := rfl
  have second : readCell selfPointer 1 = .ok 0 := rfl
  have unfinished (steps pos : Nat) (out : List UInt8) (len : Nat) :
      dnsParseName selfPointer steps 0 pos out len = .error .unfinished := by
    induction steps generalizing pos with
    | zero => rfl
    | succ steps inductionHypothesis =>
        rw [dnsParseName_pointer first (by decide) second]
        exact inductionHypothesis len
  have size : selfPointer.length = 1024 := by
    rw [selfPointer, List.length_cons, List.length_replicate]
  refine ⟨size, unfinished, ?_⟩
  rintro ⟨steps, space, runs⟩
  obtain ⟨result, returned⟩ := runs (List.replicate space 0) (by simp)
  rw [unfinished] at returned
  exact absurd returned (by simp)

end SimpleBasicComponents.DnsClient
