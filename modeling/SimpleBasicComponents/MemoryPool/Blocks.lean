import SimpleBasicComponents.MemoryPool.Model
import SimpleBasicComponents.Semantics.BumpArena
import Mathlib.Data.Nat.Bitwise

/-!
The block chain of the memory pool.

Owns: the rounding of a pointer as a natural number, what the search for room
finds, and what a new block does to the chain.
-/

namespace SimpleBasicComponents.MemoryPool

open SimpleBasicComponents.Semantics

/-! ### Rounding -/

def roundUp (n : Nat) : Nat := (n + 31) / 32 * 32

private theorem and_mask_eq {n : Nat} (bound : n < 2 ^ 64) : n &&& (2 ^ 64 - 32) = n / 32 * 32 := by
  apply Nat.eq_of_testBit_eq
  intro i
  have mask : 2 ^ 64 - 32 = 2 ^ 5 * (2 ^ 59 - 1) := by decide
  have cleared : n / 32 * 32 = 2 ^ 5 * (n / 2 ^ 5) := by omega
  rw [Nat.testBit_and, mask, cleared, Nat.testBit_two_pow_mul, Nat.testBit_two_pow_sub_one,
    Nat.testBit_two_pow_mul, Nat.testBit_div_two_pow]
  by_cases low : 5 ≤ i
  · by_cases high : i < 64
    · have inMask : i - 5 < 59 := by omega
      simp [low, inMask]
    · have beyond : n < 2 ^ i :=
        Nat.lt_of_lt_of_le bound (Nat.pow_le_pow_right (by decide) (Nat.le_of_not_lt high))
      have zero : n.testBit i = false := Nat.testBit_lt_two_pow beyond
      have same : i - 5 + 5 = i := by omega
      simp [low, same, zero]
  · simp [low]

theorem mpAlignPtr_toNat (p : UInt64) : (mpAlignPtr p).toNat = roundUp p.toNat % 2 ^ 64 := by
  have bound := p.toNat_lt
  have mask : (~~~(mpAlignment - 1)).toNat = 2 ^ 64 - 32 := by decide
  have offset : (mpAlignment - 1).toNat = 31 := by decide
  unfold mpAlignPtr roundUp
  rw [UInt64.toNat_and, mask, and_mask_eq (UInt64.toNat_lt _), UInt64.toNat_add, offset]
  omega

/-- `place` moves a pointer up by less than the alignment, as `round` does
without wrapping around. -/
structure Rounds (place : UInt64 → UInt64) (round : Nat → Nat) : Prop where
  toNat : ∀ p, (place p).toNat = round p.toNat % 2 ^ 64
  up : ∀ n, n ≤ round n
  near : ∀ n, round n ≤ n + 31

theorem mpAlignPtr_rounds : Rounds mpAlignPtr roundUp := by
  refine ⟨mpAlignPtr_toNat, ?_, ?_⟩
  · intro n
    unfold roundUp
    omega
  · intro n
    unfold roundUp
    omega

theorem unaligned_rounds : Rounds (fun p => p) (fun n => n) := by
  refine ⟨?_, fun n => Nat.le_refl n, fun n => Nat.le_add_right n 31⟩
  intro p
  exact (Nat.mod_eq_of_lt p.toNat_lt).symm

/-! ### Nodes -/

/-- The bytes behind the header of a node. -/
def Node.region (node : Node) : Region :=
  { first := node.addr.toNat + 32, cursor := node.last.toNat, stop := node.endPtr.toNat }

/-- Where a node and its bytes are. -/
def Node.span (node : Node) : UInt64 × UInt64 := (node.addr, node.endPtr)

/-- Every cursor lies between the end of the header and the end of its block. -/
def Pool.Inside (pool : Pool) : Prop := ∀ node ∈ pool.chain, node.region.Ordered

theorem Pool.head_mem_chain (pool : Pool) : pool.head ∈ pool.chain := by
  unfold Pool.head Pool.chain
  cases pool.before with
  | nil => exact List.mem_cons_self
  | cons node rest => exact List.mem_cons_self

theorem mpResetPool_chain (pool : Pool) :
    (mpResetPool pool).1.chain = pool.chain.map Node.rewind := by
  simp [mpResetPool, Pool.chain]

/-- Only `mp_destory_pool` closes the pool. -/
theorem step_closes {pool : Pool} {call : Call} {shown : List Event}
    (taken : step (some pool) call = some (none, shown)) :
    call.request = .destoryPool ∧ shown = mpDestoryPool pool := by
  obtain ⟨asked, answers⟩ := call
  cases asked with
  | destoryPool => exact ⟨rfl, (Prod.mk.inj (Option.some.inj taken)).2.symm⟩
  | alloc | nalloc | calloc | memalign =>
      obtain ⟨_, _, stillOpen, _⟩ := answered_eq taken
      contradiction
  | free | resetPool => exact absurd (Prod.mk.inj (Option.some.inj taken)).1 (by simp)

/-! ### The search for room -/

/-- From the front on, up to the first node with room for the request, no cursor
rounds up to beyond the end of its block. -/
def RoundsInside (round : Nat → Nat) (size : UInt64) : List Node → Prop
  | [] => True
  | node :: after =>
      round node.last.toNat ≤ node.endPtr.toNat ∧
        (round node.last.toNat + size.toNat ≤ node.endPtr.toNat ∨ RoundsInside round size after)

instance decidableRoundsInside (round : Nat → Nat) (size : UInt64) :
    (nodes : List Node) → Decidable (RoundsInside round size nodes)
  | [] => isTrue trivial
  | node :: after => by
      have := decidableRoundsInside round size after
      unfold RoundsInside
      infer_instance

/-- The first node that passes the test of the loop serves the request. -/
theorem takeRoom_spec (place : UInt64 → UInt64) (size : UInt64) (p : Node) (after : List Node) :
    match takeRoom place size p after with
    | none => ∀ node ∈ p :: after, ¬ node.endPtr - place node.last ≥ size
    | some ((served, rest), m) =>
        ∃ front node back, p :: after = front ++ node :: back ∧
          served :: rest = front ++ { node with last := m + size } :: back ∧
          m = place node.last ∧ node.endPtr - place node.last ≥ size ∧
          ∀ passed ∈ front, ¬ passed.endPtr - place passed.last ≥ size := by
  induction after generalizing p with
  | nil =>
      unfold takeRoom
      by_cases fits : p.endPtr - place p.last ≥ size
      · simp only [fits, if_true]
        exact ⟨[], p, [], rfl, rfl, rfl, fits, by simp⟩
      · simp only [fits, if_false]
        intro node member
        rw [List.mem_singleton.mp member]
        exact fits
  | cons next after inductionHypothesis =>
      unfold takeRoom
      by_cases fits : p.endPtr - place p.last ≥ size
      · simp only [fits, if_true]
        exact ⟨[], p, next :: after, rfl, rfl, rfl, fits, by simp⟩
      · simp only [fits, if_false]
        have later := inductionHypothesis next
        cases found : takeRoom place size next after with
        | none =>
            rw [found] at later
            intro node member
            cases List.mem_cons.mp member with
            | inl same =>
                rw [same]
                exact fits
            | inr behind => exact later node behind
        | some result =>
            obtain ⟨⟨served, rest⟩, m⟩ := result
            rw [found] at later
            obtain ⟨front, node, back, before, now, atNode, room, skipped⟩ := later
            refine ⟨p :: front, node, back, by rw [before]; rfl, by rw [now]; rfl, atNode, room, ?_⟩
            intro passed member
            cases List.mem_cons.mp member with
            | inl same =>
                rw [same]
                exact fits
            | inr behind => exact skipped passed behind

section Rounding

variable {place : UInt64 → UInt64} {round : Nat → Nat} {size : UInt64} {node : Node}

/-- The unsigned difference passes the test when there is room, and also when the
rounded cursor is beyond the end. -/
theorem fits_iff (rounds : Rounds place round) (small : size.toNat ≤ 4095)
    (ordered : node.region.Ordered) :
    node.endPtr - place node.last ≥ size ↔
      node.endPtr.toNat < round node.last.toNat ∨
        round node.last.toNat + size.toNat ≤ node.endPtr.toNat := by
  have placed := rounds.toNat node.last
  have up := rounds.up node.last.toNat
  have near := rounds.near node.last.toNat
  have bound := node.endPtr.toNat_lt
  have below : node.last.toNat ≤ node.endPtr.toNat := ordered.2
  show size ≤ node.endPtr - place node.last ↔ _
  rw [UInt64.le_iff_toNat_le, UInt64.toNat_sub, placed]
  omega

/-- A cursor that was rounded to beyond the end of its block does not come back. -/
theorem not_ordered_of_beyond (rounds : Rounds place round) (small : size.toNat ≤ 4095)
    (ordered : node.region.Ordered) (short : node.endPtr.toNat - node.addr.toNat < 2 ^ 63)
    (beyond : node.endPtr.toNat < round node.last.toNat) :
    ¬ ({ node with last := place node.last + size } : Node).region.Ordered := by
  have placed := rounds.toNat node.last
  have near := rounds.near node.last.toNat
  have bound := node.endPtr.toNat_lt
  have below : node.last.toNat ≤ node.endPtr.toNat := ordered.2
  have header : node.addr.toNat + 32 ≤ node.last.toNat := ordered.1
  unfold Region.Ordered Node.region
  simp only [UInt64.toNat_add, placed]
  omega

theorem roundsInside_append_iff {front back : List Node}
    (passed : ∀ node ∈ front, round node.last.toNat ≤ node.endPtr.toNat ∧
      ¬ round node.last.toNat + size.toNat ≤ node.endPtr.toNat) :
    RoundsInside round size (front ++ back) ↔ RoundsInside round size back := by
  induction front with
  | nil => rfl
  | cons node front inductionHypothesis =>
      have here := passed node List.mem_cons_self
      have later := inductionHypothesis fun other member =>
        passed other (List.mem_cons_of_mem _ member)
      show _ ∧ _ ↔ _
      rw [← later]
      constructor
      · intro inside
        exact inside.2.resolve_left here.2
      · intro inside
        exact ⟨here.1, .inr inside⟩

/-- Without rounding no cursor leaves its block. -/
theorem roundsInside_unaligned {nodes : List Node}
    (ordered : ∀ node ∈ nodes, node.region.Ordered) :
    RoundsInside (fun n => n) size nodes := by
  induction nodes with
  | nil => trivial
  | cons node after inductionHypothesis =>
      refine ⟨(ordered node List.mem_cons_self).2, .inr (inductionHypothesis ?_)⟩
      intro other member
      exact ordered other (List.mem_cons_of_mem _ member)

end Rounding

/-! ### A new block -/

/-- The block that `mp_alloc_block` makes at `addr` and serves the request from. -/
def freshNode (pool : Pool) (addr size : UInt64) : Node :=
  { addr := addr
    last := mpAlignPtr (addr + sizeofNode) + size
    endPtr := addr + (pool.head.endPtr - pool.head.addr)
    failed := 0 }

/-- The nodes from `p` on, each but the last with one more failure. -/
def countFailures (p : Node) : List Node → List Node
  | [] => [p]
  | next :: after => { p with failed := p.failed + 1 } :: countFailures next after

theorem moveCurrent_append (before between : List Node) (p : Node) (after : List Node) :
    (moveCurrent before between p after).1 ++ (moveCurrent before between p after).2 =
      before ++ between ++ countFailures p after := by
  induction after generalizing before between p with
  | nil => simp [moveCurrent, countFailures]
  | cons next after inductionHypothesis =>
      unfold moveCurrent countFailures
      simp only
      split
      · rw [inductionHypothesis]
        simp
      · rw [inductionHypothesis]
        simp

theorem append_chain (pool : Pool) (newNode : Node) :
    (pool.append newNode).chain =
      pool.before ++ countFailures pool.current pool.after ++ [newNode] := by
  have whole := moveCurrent_append pool.before [] pool.current pool.after
  rw [List.append_nil] at whole
  unfold Pool.append Pool.chain
  rw [← whole]
  split
  · rename_i before cut
    simp [cut]
  · rename_i before current after cut
    simp [cut]

theorem append_max (pool : Pool) (newNode : Node) : (pool.append newNode).max = pool.max := by
  unfold Pool.append
  split <;> rfl

/-- Whatever does not look at the failures is the same for the nodes that were counted. -/
theorem countFailures_map {Result : Type*} {read : Node → Result}
    (blind : ∀ node : Node, read { node with failed := node.failed + 1 } = read node)
    (p : Node) (after : List Node) :
    (countFailures p after).map read = (p :: after).map read := by
  induction after generalizing p with
  | nil => rfl
  | cons next after inductionHypothesis =>
      unfold countFailures
      rw [List.map_cons, List.map_cons, inductionHypothesis, blind]

theorem length_countFailures (p : Node) (after : List Node) :
    (countFailures p after).length = after.length + 1 := by
  have lengths := congrArg List.length (@countFailures_map _ Node.addr (fun _ => rfl) p after)
  rwa [List.length_map, List.length_map] at lengths

theorem append_chain_map {Result : Type*} {read : Node → Result}
    (blind : ∀ node : Node, read { node with failed := node.failed + 1 } = read node)
    (pool : Pool) (newNode : Node) :
    (pool.append newNode).chain.map read = pool.chain.map read ++ [read newNode] := by
  rw [append_chain, List.map_append, List.map_append, countFailures_map blind]
  simp [Pool.chain]

end SimpleBasicComponents.MemoryPool
