import SimpleBasicComponents.RbTree.Model
import SimpleBasicComponents.Semantics.Ensures

/-!
Which nodes are allocated.

Owns: the rule that no operation on the tree allocates or frees nodes, but for
`free` itself, and that a deletion frees one node.
-/

namespace SimpleBasicComponents.RbTree

open SimpleBasicComponents.Semantics

/-- The same nodes are allocated, whatever they hold. -/
structure Keeps (start T : Rbtree) : Prop where
  length : T.heap.length = start.heap.length
  freed : ∀ addr, T.heap.load addr = none ↔ start.heap.load addr = none

/-- The same nodes are allocated, but for the one that was freed. -/
structure Frees (start : Rbtree) (addr : Addr) (T : Rbtree) : Prop where
  length : T.heap.length = start.heap.length
  freed : ∀ other, T.heap.load other = none ↔ start.heap.load other = none ∨ other = addr
  was : start.heap.load addr ≠ none

section

variable {start T : Rbtree} {node parent child a b x ptr : Ptr} {side : Side} {key : Int32}
  {color : UInt8}

theorem Keeps.refl (T : Rbtree) : Keeps T T := ⟨rfl, fun _ => Iff.rfl⟩

theorem Keeps.frees {addr : Addr} {last : Rbtree} (keeps : Keeps start T) (frees : Frees T addr last) :
    Frees start addr last where
  length := frees.length.trans keeps.length
  freed other := by rw [frees.freed, keeps.freed]
  was isNone := frees.was ((keeps.freed addr).mpr isNone)

/-! ### Assignments -/

theorem assign_keeps (keeps : Keeps start T) (fields : RbtreeNode → RbtreeNode) :
    Ensures (T.assign ptr fields) (Keeps start) := by
  unfold Rbtree.assign
  refine .bind_any fun addr _ => .bind_any fun old found => .bind_any fun heap stored => .of_pure ?_
  have ⟨other, stores, sameLength, here, others⟩ := Heap.store_eq_some found (fields old)
  rw [stored] at stores
  obtain rfl := Option.some.inj stores
  refine ⟨sameLength.trans keeps.length, fun other => ?_⟩
  rw [← keeps.freed]
  by_cases same : other = addr
  · rw [same, here, found]
    simp
  · rw [others other same]

theorem free_frees : Ensures (T.free ptr) fun next => ∃ addr, ptr = some addr ∧ Frees T addr next := by
  unfold Rbtree.free
  refine .bind_any fun addr isPtr => .bind_any fun heap freed => .of_pure ⟨addr, isPtr, ?_⟩
  cases found : T.heap.load addr with
  | none => simp [Heap.free, found] at freed
  | some old =>
      obtain ⟨other, frees, sameLength, others⟩ := Heap.free_eq_some found
      rw [freed] at frees
      obtain rfl := Option.some.inj frees
      refine ⟨sameLength, fun other => ?_, by rw [found]; simp⟩
      show heap.load other = none ↔ _
      by_cases same : other = addr
      · rw [same, Heap.load_free_self freed]
        simp
      · rw [others other same]
        simp [same]

theorem setColor_keeps (keeps : Keeps start T) : Ensures (T.setColor ptr color) (Keeps start) :=
  assign_keeps keeps _

theorem setParent_keeps (keeps : Keeps start T) : Ensures (T.setParent ptr parent) (Keeps start) :=
  assign_keeps keeps _

theorem setChild_keeps (keeps : Keeps start T) : Ensures (T.setChild ptr side child) (Keeps start) :=
  assign_keeps keeps _

private theorem xorAssign_keeps {α : Type} [XorOp α] (field : Field α) (keeps : Keeps start T) :
    Ensures (xorAssign field T x a b) (Keeps start) := by
  unfold xorAssign
  exact .bind_any fun _ _ => .bind_any fun _ _ => assign_keeps keeps _

theorem swap_keeps {α : Type} [XorOp α] {field : Field α} (keeps : Keeps start T) :
    Ensures (swap field T a b) (Keeps start) := by
  unfold swap
  refine .bind (xorAssign_keeps field keeps) fun first keepsFirst => ?_
  refine .bind (xorAssign_keeps field keepsFirst) fun second keepsSecond => ?_
  exact xorAssign_keeps field keepsSecond

/-! ### Links -/

theorem adopt_keeps (keeps : Keeps start T) : Ensures (adopt T child parent) (Keeps start) := by
  unfold adopt
  exact .ite (fun _ => setParent_keeps keeps) fun _ => .of_some keeps

theorem relink_keeps (keeps : Keeps start T) : Ensures (relink T side node parent child) (Keeps start) := by
  unfold relink
  refine .ite (fun _ => .of_some ⟨keeps.length, keeps.freed⟩) fun _ => .bind_any fun above _ => ?_
  exact .ite (fun _ => setChild_keeps keeps) fun _ => setChild_keeps keeps

theorem logicDelete_keeps (keeps : Keeps start T) :
    Ensures (logicDelete T node child) fun result => Keeps start result.1 := by
  unfold logicDelete
  refine .ite (fun _ => .of_some keeps) fun _ => .ite (fun _ => .of_some keeps) fun _ => ?_
  refine .bind_any fun doomed _ => ?_
  refine .bind (adopt_keeps keeps) fun adopted keepsAdopted => ?_
  refine .bind (relink_keeps keepsAdopted) fun unlinked keepsUnlinked => ?_
  exact .of_pure keepsUnlinked

private theorem rotateLinks_keeps (keeps : Keeps start T) :
    Ensures (rotateLinks T side parent child) (Keeps start) := by
  unfold rotateLinks
  refine .bind_any fun below _ => ?_
  refine .bind (setChild_keeps keeps) fun lowered keepsLowered => ?_
  refine .bind (adopt_keeps keepsLowered) fun adopted keepsAdopted => ?_
  refine .bind_any fun above _ => ?_
  refine .bind (setParent_keeps keepsAdopted) fun lifted keepsLifted => ?_
  refine .bind (relink_keeps keepsLifted) fun relinked keepsRelinked => ?_
  refine .bind (setChild_keeps keepsRelinked) fun joined keepsJoined => ?_
  exact setParent_keeps keepsJoined

theorem rotate_keeps (keeps : Keeps start T) : Ensures (rotate T side parent) (Keeps start) := by
  unfold rotate
  refine .bind_any fun above _ => ?_
  refine .bind (swap_keeps keeps) fun swapped keepsSwapped => ?_
  exact rotateLinks_keeps keepsSwapped

/-! ### Insertion -/

/-- What a turn of a fix-up leaves. -/
def KeepsTurn (start : Rbtree) : Turn (Rbtree × Ptr) Rbtree → Prop :=
  Turn.Within (fun state => Keeps start state.1) (Keeps start)

private theorem insertFixupSide_keeps (keeps : Keeps start T) :
    Ensures (insertFixupSide T side node parent child) (KeepsTurn start) := by
  unfold insertFixupSide
  refine .bind_any fun grand _ => .bind_any fun uncle _ => .ite (fun _ => ?_) fun _ => ?_
  · refine .bind (swap_keeps keeps) fun swapped keepsSwapped => ?_
    refine .bind_any fun parentNode _ => ?_
    refine .bind (setColor_keeps keepsSwapped) fun painted keepsPainted => ?_
    exact .of_pure keepsPainted
  · refine .bind_any fun parentNode _ => ?_
    refine .ite (fun _ => ?_) fun _ => ?_
    · refine .bind (rotate_keeps keeps) fun lower keepsLower => ?_
      refine .bind (rotate_keeps keepsLower) fun upper keepsUpper => ?_
      exact .of_pure keepsUpper
    · refine .bind (rotate_keeps keeps) fun upper keepsUpper => ?_
      exact .of_pure keepsUpper

private theorem insertFixupTurn_keeps (state : Rbtree × Ptr) (keeps : Keeps start state.1) :
    Ensures (insertFixupTurn state) (KeepsTurn start) := by
  unfold insertFixupTurn
  refine .bind_any fun here _ => .bind_any fun parentNode _ => .ite (fun _ => ?_) fun _ => .of_pure keeps
  refine .bind_any fun grand _ => ?_
  exact .ite (fun _ => insertFixupSide_keeps keeps) fun _ => insertFixupSide_keeps keeps

private theorem insertFixup_keeps (keeps : Keeps start T) :
    Ensures (insertFixup T node) (Keeps start) := by
  unfold insertFixup
  refine .bind_any fun here _ => .bind_any fun parentNode _ => .ite (fun _ => .of_pure keeps) fun _ => ?_
  refine .bind (ensures_loop insertFixupTurn_keeps keeps) fun fixed keepsFixed => ?_
  exact setColor_keeps keepsFixed

private theorem linkNew_keeps (keeps : Keeps start T) :
    Ensures (linkNew T key node parent) (Keeps start) := by
  unfold linkNew
  refine .ite (fun _ => setColor_keeps ⟨keeps.length, keeps.freed⟩) fun _ => .bind_any fun above _ => ?_
  exact .ite (fun _ => setChild_keeps keeps) fun _ => setChild_keeps keeps

/-- An insertion allocates and frees nothing. -/
theorem rbtreeInsert_keeps (T : Rbtree) (node : Ptr) : Ensures (rbtreeInsert T node) (Keeps T) := by
  unfold rbtreeInsert
  refine .bind_any fun fresh _ => .bind_any fun found _ => ?_
  cases found with
  | none => exact .of_pure (.refl T)
  | some parent =>
      refine .bind (assign_keeps (.refl T) _) fun ready keepsReady => ?_
      refine .bind (linkNew_keeps keepsReady) fun linked keepsLinked => ?_
      exact insertFixup_keeps keepsLinked

/-! ### Deletion -/

private theorem deleteFixupSide_keeps (keeps : Keeps start T) :
    Ensures (deleteFixupSide T side node parent) (KeepsTurn start) := by
  unfold deleteFixupSide
  refine .bind_any fun above _ => .bind_any fun beside _ => .ite (fun _ => ?_) fun _ =>
    .ite (fun _ => ?_) fun _ => .ite (fun _ => ?_) fun _ => .ite (fun _ => ?_) fun _ => ?_
  · refine .bind (rotate_keeps keeps) fun turned keepsTurned => ?_
    exact .of_pure keepsTurned
  · refine .bind (setColor_keeps keeps) fun painted keepsPainted => ?_
    refine .bind (rotate_keeps keepsPainted) fun turned keepsTurned => ?_
    exact .of_pure keepsTurned
  · refine .bind (setColor_keeps keeps) fun painted keepsPainted => ?_
    refine .bind (rotate_keeps keepsPainted) fun lower keepsLower => ?_
    refine .bind (rotate_keeps keepsLower) fun upper keepsUpper => ?_
    exact .of_pure keepsUpper
  · refine .bind (swap_keeps keeps) fun swapped keepsSwapped => ?_
    exact .of_pure keepsSwapped
  · refine .bind (setColor_keeps keeps) fun painted keepsPainted => ?_
    exact .of_pure keepsPainted

private theorem deleteFixupTurn_keeps (state : Rbtree × Ptr) (keeps : Keeps start state.1) :
    Ensures (deleteFixupTurn state) (KeepsTurn start) := by
  unfold deleteFixupTurn
  refine .bind_any fun here _ => .ite (fun _ => ?_) fun _ => .ite (fun _ => ?_) fun _ =>
    .ite (fun _ => .of_pure keeps) fun _ =>
      .ite (fun _ => .of_pure ⟨keeps.length, keeps.freed⟩) fun _ => ?_
  · refine .bind (setColor_keeps keeps) fun painted keepsPainted => ?_
    exact .of_pure keepsPainted
  · refine .bind (setColor_keeps keeps) fun painted keepsPainted => ?_
    exact .of_pure keepsPainted
  · refine .bind_any fun above _ => ?_
    exact .ite (fun _ => deleteFixupSide_keeps keeps) fun _ =>
      .ite (fun _ => deleteFixupSide_keeps keeps) fun _ => .of_pure keeps

private theorem deleteFixup_keeps (keeps : Keeps start T) :
    Ensures (deleteFixup T node) (Keeps start) := by
  unfold deleteFixup
  exact .ite (fun _ => .of_some keeps) fun _ => ensures_loop deleteFixupTurn_keeps keeps

private theorem swapEntry_keeps (keeps : Keeps start T) :
    Ensures (swapEntry T node child) (Keeps start) := by
  unfold swapEntry
  refine .bind (swap_keeps keeps) fun swapped keepsSwapped => ?_
  refine .bind_any fun there _ => .bind_any fun here _ => ?_
  refine .bind (assign_keeps keepsSwapped _) fun assigned keepsAssigned => ?_
  exact assign_keeps keepsAssigned _

/-- The three ways to leave the loop of `rbtree_delete` end alike. -/
private theorem unlink_frees (keeps : Keeps start T) : Ensures (do
      let (T, _) ← logicDelete T node child
      let T ← T.free node
      return (.leave T : Turn (Rbtree × Ptr) Rbtree))
    (Turn.Within (fun state => Keeps start state.1) fun next =>
      ∃ addr, node = some addr ∧ Frees start addr next) := by
  refine .bind (logicDelete_keeps keeps) fun unlinked keepsUnlinked => ?_
  refine .bind free_frees fun next isFreed => ?_
  have ⟨addr, isNode, frees⟩ := isFreed
  exact .of_pure ⟨addr, isNode, keepsUnlinked.frees frees⟩

/-- A turn of `rbtree_delete` frees the node it is at, or leaves the nodes to the next turn. -/
theorem deleteTurn_frees (state : Rbtree × Ptr) (keeps : Keeps start state.1) :
    Ensures (deleteTurn state) (Turn.Within (fun next => Keeps start next.1) fun next =>
      ∃ addr, state.2 = some addr ∧ Frees start addr next) := by
  unfold deleteTurn
  refine .bind_any fun here _ => .ite (fun _ => ?_) fun _ => .ite (fun _ => ?_) fun _ =>
    .ite (fun _ => ?_) fun _ => ?_
  · refine .bind (deleteFixup_keeps keeps) fun fixed keepsFixed => ?_
    refine .bind_any fun doomed _ => ?_
    exact unlink_frees keepsFixed
  · refine .bind (deleteFixup_keeps keeps) fun fixed keepsFixed => ?_
    exact unlink_frees keepsFixed
  · refine .bind (deleteFixup_keeps keeps) fun fixed keepsFixed => ?_
    exact unlink_frees keepsFixed
  · refine .bind_any fun successor _ => ?_
    refine .bind (swapEntry_keeps keeps) fun swapped keepsSwapped => ?_
    exact .of_pure keepsSwapped

end

end SimpleBasicComponents.RbTree
