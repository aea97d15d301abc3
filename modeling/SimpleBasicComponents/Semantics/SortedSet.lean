import Mathlib.Data.List.Basic

/-!
Sets kept sorted under a comparison.

Two keys are the same to the set when neither is less than the other. The
operations only compare; the lemmas ask that the comparison is a strict order in
which keys that are the same to the set are equal.
-/

namespace SimpleBasicComponents.Semantics.SortedSet

variable {α κ : Type*} (less : κ → κ → Bool) (key : α → κ)

def same (one two : κ) : Bool := !less one two && !less two one

/-- The set with the item, and whether it was put in. -/
def insert (item : α) : List α → List α × Bool
  | [] => ([item], true)
  | head :: rest =>
      if less (key item) (key head) then (item :: head :: rest, true)
      else if less (key head) (key item) then
        (head :: (insert item rest).1, (insert item rest).2)
      else (head :: rest, false)

def find (sought : κ) (items : List α) : Option α :=
  items.find? fun item => same less (key item) sought

def erase (sought : κ) (items : List α) : List α :=
  items.eraseP fun item => same less (key item) sought

def Sorted (items : List α) : Prop := items.Pairwise fun one two => less (key one) (key two) = true

/-- A strict order that tells any two keys apart. -/
structure Strict : Prop where
  irrefl : ∀ one, less one one = false
  trans : ∀ one two three, less one two = true → less two three = true → less one three = true
  apart : ∀ one two, less one two = false → less two one = false → one = two

variable {less} {key} {item other : α} {items rest : List α} {sought : κ}

theorem same_iff (strict : Strict less) {one two : κ} : same less one two = true ↔ one = two := by
  unfold same
  constructor
  · intro neither
    simp only [Bool.and_eq_true, Bool.not_eq_true'] at neither
    exact strict.apart one two neither.1 neither.2
  · rintro rfl
    simp [strict.irrefl one]

/-- The first item is less than the others. -/
theorem Sorted.head_less (sorted : Sorted less key (item :: rest)) (member : other ∈ rest) :
    less (key item) (key other) = true := (List.pairwise_cons.mp sorted).1 other member

theorem Sorted.key_injective (strict : Strict less) (sorted : Sorted less key items)
    (member : item ∈ items) (memberOther : other ∈ items) (sameKey : key item = key other) :
    item = other := by
  induction items with
  | nil => contradiction
  | cons head rest inductionHypothesis =>
      have ordered := List.pairwise_cons.mp sorted
      have notEqual : ∀ later ∈ rest, key head ≠ key later := by
        intro later present equal
        have before := ordered.1 later present
        rw [equal, strict.irrefl] at before
        contradiction
      rcases List.mem_cons.mp member with rfl | present <;>
        rcases List.mem_cons.mp memberOther with rfl | presentOther
      · rfl
      · exact absurd sameKey (notEqual other presentOther)
      · exact absurd sameKey.symm (notEqual item present)
      · exact inductionHypothesis ordered.2 present presentOther

theorem find_eq_some_iff (strict : Strict less) (sorted : Sorted less key items) :
    find less key sought items = some item ↔ item ∈ items ∧ key item = sought := by
  unfold find
  constructor
  · intro found
    exact ⟨List.mem_of_find?_eq_some found, (same_iff strict).mp (by simpa using List.find?_some found)⟩
  · rintro ⟨member, rfl⟩
    cases found : items.find? fun other => same less (key other) (key item) with
    | none =>
        have absent := List.find?_eq_none.mp found item member
        exact absurd ((same_iff strict).mpr rfl) absent
    | some other =>
        have equal := (same_iff strict).mp (by simpa using List.find?_some found)
        rw [sorted.key_injective strict (List.mem_of_find?_eq_some found) member equal]

theorem mem_erase (strict : Strict less) (sorted : Sorted less key items) :
    item ∈ erase less key sought items ↔ item ∈ items ∧ key item ≠ sought := by
  unfold erase
  induction items with
  | nil => simp
  | cons head rest inductionHypothesis =>
      have ordered := List.pairwise_cons.mp sorted
      by_cases isSought : key head = sought
      · rw [List.eraseP_cons_of_pos (by simpa using (same_iff strict).mpr isSought), List.mem_cons]
        constructor
        · intro later
          refine ⟨.inr later, fun equal => ?_⟩
          have before := ordered.1 item later
          rw [isSought, equal, strict.irrefl] at before
          contradiction
        · rintro ⟨rfl | later, different⟩
          · exact absurd isSought different
          · exact later
      · rw [List.eraseP_cons_of_neg (by simpa using mt (same_iff strict).mp isSought), List.mem_cons,
          List.mem_cons, inductionHypothesis ordered.2]
        constructor
        · rintro (rfl | ⟨later, different⟩)
          · exact ⟨.inl rfl, isSought⟩
          · exact ⟨.inr later, different⟩
        · rintro ⟨rfl | later, different⟩
          · exact .inl rfl
          · exact .inr ⟨later, different⟩

theorem Sorted.erase (sorted : Sorted less key items) (sought : κ) :
    Sorted less key (erase less key sought items) := List.Pairwise.sublist List.eraseP_sublist sorted

/-- An item with a new key is put in. -/
theorem mem_insert (strict : Strict less) (new : ∀ other ∈ items, key other ≠ key item) :
    other ∈ (insert less key item items).1 ↔ other = item ∨ other ∈ items := by
  induction items with
  | nil => simp [insert]
  | cons head rest inductionHypothesis =>
      have newRest := inductionHypothesis fun later member => new later (List.mem_cons_of_mem _ member)
      unfold insert
      by_cases before : less (key item) (key head) = true
      · rw [if_pos before, List.mem_cons]
      · rw [if_neg before]
        by_cases after : less (key head) (key item) = true
        · rw [if_pos after, List.mem_cons, newRest, List.mem_cons]
          exact or_left_comm
        · have equal := strict.apart _ _ (by simpa using after) (by simpa using before)
          exact absurd equal (new head (List.mem_cons_self ..))

/-- Whatever the item, it is put in beside the others or the set stays. -/
theorem insert_perm_or_eq :
    (insert less key item items).1.Perm (item :: items) ∨ (insert less key item items).1 = items := by
  induction items with
  | nil => exact .inl (List.Perm.refl _)
  | cons head rest inductionHypothesis =>
      unfold insert
      by_cases before : less (key item) (key head) = true
      · rw [if_pos before]
        exact .inl (List.Perm.refl _)
      · rw [if_neg before]
        by_cases after : less (key head) (key item) = true
        · rw [if_pos after]
          rcases inductionHypothesis with put | stays
          · exact .inl ((put.cons head).trans (List.Perm.swap item head rest))
          · exact .inr (congrArg (head :: ·) stays)
        · rw [if_neg after]
          exact .inr rfl

theorem Sorted.insert (strict : Strict less) (sorted : Sorted less key items) :
    Sorted less key (insert less key item items).1 := by
  induction items with
  | nil => exact List.pairwise_singleton ..
  | cons head rest inductionHypothesis =>
      have ordered := List.pairwise_cons.mp sorted
      unfold SortedSet.insert
      by_cases before : less (key item) (key head) = true
      · rw [if_pos before]
        refine List.pairwise_cons.mpr ⟨?_, sorted⟩
        intro later member
        rcases List.mem_cons.mp member with rfl | present
        · exact before
        · exact strict.trans _ _ _ before (ordered.1 later present)
      · rw [if_neg before]
        by_cases after : less (key head) (key item) = true
        · rw [if_pos after]
          refine List.pairwise_cons.mpr ⟨?_, inductionHypothesis ordered.2⟩
          intro later member
          rcases insert_perm_or_eq with put | stays
          · rcases List.mem_cons.mp (put.mem_iff.mp member) with rfl | present
            · exact after
            · exact ordered.1 later present
          · rw [stays] at member
            exact ordered.1 later member
        · rw [if_neg after]
          exact sorted

end SimpleBasicComponents.Semantics.SortedSet
