import Mathlib.Data.List.Forall2

/-!
First fit.

Items are put into bins one after the other, each into the first bin that takes
it; `fill` says what a bin becomes when it takes an item. What becomes of the
bins depends only on what a relation kept by `fill` sees of them (`insert_rel`),
and bins behind those that take the items are left alone (`insert_append`).
-/

namespace SimpleBasicComponents.Semantics.FirstFit

variable {Bin Other Item : Type*}

/-- The bins when the first one that takes the item has taken it. -/
def insert (fill : Item → Bin → Option Bin) (item : Item) : List Bin → Option (List Bin)
  | [] => none
  | bin :: bins =>
      match fill item bin with
      | some filled => some (filled :: bins)
      | none => (insert fill item bins).map (bin :: ·)

/-- The bins when they have taken all the items in turn. -/
def pack (fill : Item → Bin → Option Bin) : List Item → List Bin → Option (List Bin)
  | [], bins => some bins
  | item :: items, bins =>
      match insert fill item bins with
      | some filled => pack fill items filled
      | none => none

variable {fill : Item → Bin → Option Bin} {item : Item} {items : List Item}
  {bin blank : Bin} {bins filled more : List Bin}

/-! ### One item -/

/-- Whatever does not change when a bin takes an item is the same for the bins. -/
theorem insert_map {View : Type*} {see : Bin → View}
    (blind : ∀ bin filled, fill item bin = some filled → see filled = see bin)
    (taken : insert fill item bins = some filled) : filled.map see = bins.map see := by
  induction bins generalizing filled with
  | nil => contradiction
  | cons bin bins inductionHypothesis =>
      unfold insert at taken
      split at taken
      · rename_i here
        obtain rfl := Option.some.inj taken
        rw [List.map_cons, List.map_cons, blind bin _ here]
      · have ⟨rest, later, same⟩ := Option.map_eq_some_iff.mp taken
        rw [← same, List.map_cons, List.map_cons, inductionHypothesis later]

theorem insert_length (taken : insert fill item bins = some filled) :
    filled.length = bins.length := by
  have lengths := congrArg List.length (@insert_map _ _ fill item bins filled _ (fun _ => ()) (fun _ _ _ => rfl) taken)
  rw [List.length_map, List.length_map] at lengths
  exact lengths

theorem insert_append (taken : insert fill item bins = some filled) (more : List Bin) :
    insert fill item (bins ++ more) = some (filled ++ more) := by
  induction bins generalizing filled with
  | nil => contradiction
  | cons bin bins inductionHypothesis =>
      rw [List.cons_append]
      unfold insert at taken ⊢
      split at taken
      · obtain rfl := Option.some.inj taken
        rfl
      · have ⟨rest, later, same⟩ := Option.map_eq_some_iff.mp taken
        rw [inductionHypothesis later, ← same]
        rfl

/-- The bins do not take the item, the one behind them does. -/
theorem insert_append_cons (refused : insert fill item bins = none)
    (taken : fill item blank = some bin) (more : List Bin) :
    insert fill item (bins ++ blank :: more) = some (bins ++ bin :: more) := by
  induction bins with
  | nil =>
      rw [List.nil_append, insert, taken]
      rfl
  | cons first bins inductionHypothesis =>
      unfold insert at refused
      split at refused
      · contradiction
      · rename_i passed
        have later := inductionHypothesis (Option.map_eq_none_iff.mp refused)
        rw [List.cons_append, insert, passed, later]
        rfl

/-! ### Bins that look the same -/

section

variable {look : Bin → Other → Prop} {fillOther : Item → Other → Option Other}

/-- Bins that look the same take the same items and still look the same. -/
theorem insert_rel
    (respects : ∀ bin other, look bin other → Option.Rel look (fill item bin) (fillOther item other))
    {bins : List Bin} {others : List Other} (same : List.Forall₂ look bins others) :
    Option.Rel (List.Forall₂ look) (insert fill item bins) (insert fillOther item others) := by
  induction same with
  | nil => exact .none
  | @cons bin other bins others here rest inductionHypothesis =>
      have first := respects bin other here
      unfold insert
      generalize fill item bin = left at first ⊢
      generalize fillOther item other = right at first ⊢
      cases first with
      | some kept => exact .some (.cons kept rest)
      | none =>
          generalize insert fill item bins = left at inductionHypothesis ⊢
          generalize insert fillOther item others = right at inductionHypothesis ⊢
          cases inductionHypothesis with
          | some kept => exact .some (.cons here kept)
          | none => exact .none

theorem pack_rel
    (respects : ∀ item bin other, look bin other →
      Option.Rel look (fill item bin) (fillOther item other))
    {bins : List Bin} {others : List Other} (same : List.Forall₂ look bins others) :
    Option.Rel (List.Forall₂ look) (pack fill items bins) (pack fillOther items others) := by
  induction items generalizing bins others with
  | nil => exact .some same
  | cons item items inductionHypothesis =>
      have first := insert_rel (respects item) same
      unfold pack
      generalize insert fill item bins = left at first ⊢
      generalize insert fillOther item others = right at first ⊢
      cases first with
      | some kept => exact inductionHypothesis kept
      | none => exact .none

end

end SimpleBasicComponents.Semantics.FirstFit
