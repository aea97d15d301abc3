import SimpleBasicComponents.TimeWheel.Runs

/-!
Cancelled timers.

Owns: what becomes of one node from `add_timer` to its turn in `dispatch_list`,
and the theorem that its callback goes by `del_timer` exactly if `malloc` left
zero in its `cancel`, or `del_timer` wrote it. `add_timer` itself never does.
-/

namespace SimpleBasicComponents.TimeWheel

open SimpleBasicComponents.Semantics

theorem calledNodes_dispatching (node : TimerNode) (addr : Addr) :
    calledNodes (dispatching node addr) = if node.cancel = 0 then [addr] else [] := by
  unfold dispatching
  split <;> rfl

theorem freedNodes_dispatching (node : TimerNode) (addr : Addr) :
    freedNodes (dispatching node addr) = [addr] := by
  unfold dispatching
  split <;> rfl

/-! ### Nodes not allocated yet -/

/-- Callbacks and frees are of nodes that were allocated. -/
def Known (world : World) (events : List Event) : Prop :=
  ∀ addr, addr ∈ calledNodes events ∨ addr ∈ freedNodes events → addr < world.heap.length

section

variable {world next : World} {events shown : List Event} {call : Call}

theorem Touches.grows (touches : Touches world next call shown) :
    world.heap.length ≤ next.heap.length := by
  cases touches with
  | nothing _ same _ _ => exact Nat.le_of_eq (congrArg List.length same.symm)
  | added _ _ _ allocs =>
      rw [allocs, Heap.length_alloc]
      exact Nat.le_succ _
  | late _ frees =>
      obtain ⟨heap, isFreed, length, -⟩ := Heap.free_eq_some Heap.load_alloc_self
      obtain rfl := Option.some.inj (isFreed.symm.trans frees)
      rw [length, Heap.length_alloc]
      exact Nat.le_succ _
  | @deleted addr node found stores =>
      obtain ⟨heap, isStored, length, -⟩ := Heap.store_eq_some found { node with cancel := 1 }
      obtain rfl := Option.some.inj (isStored.symm.trans stores)
      exact Nat.le_of_eq length.symm
  | dispatched found frees =>
      obtain ⟨heap, isFreed, length, -⟩ := Heap.free_eq_some found
      obtain rfl := Option.some.inj (isFreed.symm.trans frees)
      exact Nat.le_of_eq length.symm

/-- What a step shows is of nodes that were allocated, or of one it allocates. -/
theorem Touches.known (touches : Touches world next call shown) : Known next shown := by
  cases touches with
  | nothing _ _ callsNone freesNone | added _ callsNone freesNone _ =>
      intro addr either
      rw [callsNone, freesNone, or_self] at either
      exact absurd either List.not_mem_nil
  | late notPositive frees =>
      intro addr either
      have isNew : addr = world.heap.length :=
        either.elim List.mem_singleton.mp List.mem_singleton.mp
      obtain ⟨heap, isFreed, length, -⟩ := Heap.free_eq_some Heap.load_alloc_self
      obtain rfl := Option.some.inj (isFreed.symm.trans frees)
      rw [isNew, length, Heap.length_alloc]
      exact Nat.lt_succ_self _
  | deleted =>
      intro addr either
      exact absurd (either.elim id id) List.not_mem_nil
  | @dispatched addr node found frees =>
      intro other either
      have same : other = addr := by
        rw [calledNodes_dispatching, freedNodes_dispatching] at either
        split at either <;> simpa using either
      have grows := (Touches.dispatched found frees).grows
      rw [same]
      exact Nat.lt_of_lt_of_le (Heap.lt_length_of_load found) grows

end

theorem exec_known {calls : List Call} {world : World} {events : List Event}
    (exec : machine.Exec calls world events) : Known world events := by
  induction exec with
  | start =>
      intro addr either
      exact absurd (either.elim id id) List.not_mem_nil
  | step before taken inductionHypothesis =>
      have touches := step_touches taken
      intro addr either
      rw [calledNodes_append, freedNodes_append, List.mem_append, List.mem_append, or_or_or_comm] at either
      rcases either with old | new
      · exact Nat.lt_of_lt_of_le (inductionHypothesis addr old) touches.grows
      · exact touches.known addr new

/-! ### The life of a node -/

/-- The flag of a node, by what `malloc` left in it and the calls since. -/
def flagAfter (cancel : UInt8) (addr : Addr) (calls : List Call) : UInt8 :=
  if .delTimer addr ∈ calls then 1 else cancel

/-- A node is live and has the flag, or it has had its turn and went by it. -/
inductive Life (addr : Addr) (flag : UInt8) (world : World) (events : List Event) : Prop where
  | live {node : TimerNode} (found : world.heap.load addr = some node) (isFlag : node.cancel = flag)
      (notCalled : addr ∉ calledNodes events) (notFreed : addr ∉ freedNodes events)
  | ended (below : addr < world.heap.length) (gone : world.heap.load addr = none)
      (called : addr ∈ calledNodes events ↔ flag = 0)

section

variable {world next : World} {events shown : List Event} {addr : Addr} {flag : UInt8}

theorem Life.below (life : Life addr flag world events) : addr < world.heap.length := by
  cases life with
  | live found => exact Heap.lt_length_of_load found
  | ended below => exact below

/-- A step that is not about the node. -/
theorem Life.elsewhere (life : Life addr flag world events)
    (same : next.heap.load addr = world.heap.load addr)
    (length : world.heap.length ≤ next.heap.length) (notCalled : addr ∉ calledNodes shown)
    (notFreed : addr ∉ freedNodes shown) : Life addr flag next (events ++ shown) := by
  have called : addr ∈ calledNodes (events ++ shown) ↔ addr ∈ calledNodes events := by
    rw [calledNodes_append, List.mem_append, or_iff_left notCalled]
  have freed : addr ∈ freedNodes (events ++ shown) ↔ addr ∈ freedNodes events := by
    rw [freedNodes_append, List.mem_append, or_iff_left notFreed]
  cases life with
  | live found isFlag notCalledYet notFreedYet =>
      rw [← called] at notCalledYet
      rw [← freed] at notFreedYet
      exact .live (same.trans found) isFlag notCalledYet notFreedYet
  | ended below gone isCalled =>
      exact .ended (Nat.lt_of_lt_of_le below length) (same.trans gone) (called.trans isCalled)

theorem Life.deleted (life : Life addr flag world events) {node : TimerNode}
    (found : world.heap.load addr = some node)
    (stores : world.heap.store addr { node with cancel := 1 } = some next.heap) :
    Life addr 1 next events := by
  obtain ⟨heap, isStored, -, here, -⟩ := Heap.store_eq_some found { node with cancel := 1 }
  obtain rfl := Option.some.inj (isStored.symm.trans stores)
  cases life with
  | live _ _ notCalled notFreed => exact .live here rfl notCalled notFreed
  | ended _ gone => exact absurd (found.symm.trans gone) (by simp)

theorem Life.dispatched (life : Life addr flag world events) {node : TimerNode}
    (found : world.heap.load addr = some node) (frees : world.heap.free addr = some next.heap) :
    Life addr flag next (events ++ dispatching node addr) := by
  obtain ⟨heap, isFreed, length, -⟩ := Heap.free_eq_some found
  obtain rfl := Option.some.inj (isFreed.symm.trans frees)
  cases life with
  | ended _ gone => exact absurd (found.symm.trans gone) (by simp)
  | live foundToo isFlag notCalled notFreed =>
      obtain rfl := Option.some.inj (found.symm.trans foundToo)
      refine .ended ?_ (Heap.load_free_self frees) ?_
      · rw [length]
        exact Heap.lt_length_of_load found
      · rw [calledNodes_append, List.mem_append, or_iff_right notCalled, calledNodes_dispatching, isFlag]
        by_cases zero : flag = 0
        · rw [if_pos zero]
          exact iff_of_true (List.mem_singleton_self _) zero
        · rw [if_neg zero]
          exact iff_of_false List.not_mem_nil zero

end

theorem flagAfter_snoc_of_ne {cancel : UInt8} {addr : Addr} {calls : List Call} {call : Call}
    (different : call ≠ .delTimer addr) :
    flagAfter cancel addr (calls ++ [call]) = flagAfter cancel addr calls := by
  have same : .delTimer addr ∈ calls ++ [call] ↔ .delTimer addr ∈ calls := by
    rw [List.mem_append, List.mem_singleton, or_iff_left different.symm]
  simp only [flagAfter, same]

theorem flagAfter_snoc_delTimer {cancel : UInt8} {addr : Addr} {calls : List Call} :
    flagAfter cancel addr (calls ++ [.delTimer addr]) = 1 :=
  if_pos (List.mem_append_right _ (List.mem_singleton_self _))

theorem Life.step {cancel : UInt8} {addr : Addr} {calls : List Call} {call : Call}
    {world next : World} {events shown : List Event}
    (life : Life addr (flagAfter cancel addr calls) world events)
    (taken : step world call = some (next, shown)) :
    Life addr (flagAfter cancel addr (calls ++ [call])) next (events ++ shown) := by
  have touches := step_touches taken
  have grows := touches.grows
  cases touches with
  | nothing updates same callsNone freesNone =>
      have different : call ≠ .delTimer addr := by
        rcases updates with rfl | rfl <;> exact fun same => Call.noConfusion same
      rw [flagAfter_snoc_of_ne different]
      apply life.elsewhere (by rw [same]) grows
      · rw [callsNone]
        exact List.not_mem_nil
      · rw [freesNone]
        exact List.not_mem_nil
  | added positive callsNone freesNone allocs =>
      rw [flagAfter_snoc_of_ne (fun same => Call.noConfusion same)]
      apply life.elsewhere ?_ grows
      · rw [callsNone]
        exact List.not_mem_nil
      · rw [freesNone]
        exact List.not_mem_nil
      · rw [allocs, Heap.load_alloc_other (Nat.ne_of_lt life.below)]
  | late notPositive frees =>
      have different : addr ≠ world.heap.length := Nat.ne_of_lt life.below
      obtain ⟨heap, isFreed, -, others⟩ := Heap.free_eq_some Heap.load_alloc_self
      obtain rfl := Option.some.inj (isFreed.symm.trans frees)
      rw [flagAfter_snoc_of_ne (fun same => Call.noConfusion same)]
      apply life.elsewhere ?_ grows
      · exact fun called => different (List.mem_singleton.mp called)
      · exact fun freed => different (List.mem_singleton.mp freed)
      · rw [others addr different, Heap.load_alloc_other different]
  | @deleted other node found stores =>
      by_cases same : other = addr
      · subst same
        rw [flagAfter_snoc_delTimer, List.append_nil]
        exact life.deleted found stores
      · obtain ⟨heap, isStored, -, -, others⟩ := Heap.store_eq_some found { node with cancel := 1 }
        obtain rfl := Option.some.inj (isStored.symm.trans stores)
        rw [flagAfter_snoc_of_ne (fun deletes => same (Call.delTimer.inj deletes))]
        exact life.elsewhere (others addr (Ne.symm same)) grows List.not_mem_nil List.not_mem_nil
  | @dispatched other node found frees =>
      rw [flagAfter_snoc_of_ne (fun same => Call.noConfusion same)]
      by_cases same : other = addr
      · subst same
        exact life.dispatched found frees
      · obtain ⟨heap, isFreed, -, others⟩ := Heap.free_eq_some found
        obtain rfl := Option.some.inj (isFreed.symm.trans frees)
        apply life.elsewhere (others addr (Ne.symm same)) grows
        · rw [calledNodes_dispatching]
          split
          · exact fun called => same (List.mem_singleton.mp called).symm
          · exact List.not_mem_nil
        · rw [freedNodes_dispatching]
          exact fun freed => same (List.mem_singleton.mp freed).symm

/-! ### Whole runs -/

/-- A node that has had its turn in `dispatch_list` was called back just if
`del_timer` had not been called on it, if and only if its `cancel` was zero when
`malloc` returned it or `del_timer` was called. A node that is freed is not given
to `del_timer` any more. -/
theorem calledUnlessDeleted_iff {before after : List Call} {time : Int} {callback : Nat} {id : Int}
    {cancel : UInt8} {start world : World} {earlier events : List Event} (positive : 0 < time)
    (reached : machine.Exec before start earlier)
    (exec : machine.Exec (before ++ .addTimer time callback id cancel :: after) world events)
    (dispatched : start.heap.length ∈ freedNodes events) :
    (start.heap.length ∈ calledNodes events ↔ .delTimer start.heap.length ∉ after) ↔
      cancel = 0 ∨ .delTimer start.heap.length ∈ after := by
  have split : before ++ Call.addTimer time callback id cancel :: after =
      (before ++ [.addTimer time callback id cancel]) ++ after := by simp
  rw [split] at exec
  obtain ⟨next, seen, reachedNext, -⟩ := exec.earlier (List.prefix_append _ _)
  obtain ⟨other, otherSeen, shown, reachedToo, taken, rfl⟩ := reachedNext.unsnoc
  obtain ⟨rfl, rfl⟩ := reached.functional reachedToo
  have known := exec_known reached
  have born : Life start.heap.length (flagAfter cancel start.heap.length []) next (earlier ++ shown) := by
    have touches : Touches start next (.addTimer time callback id cancel) shown := step_touches taken
    cases touches with
    | nothing updates => exact absurd updates (by simp)
    | late notPositive => exact absurd positive (Int.not_lt.mpr notPositive)
    | added _ callsNone freesNone allocs =>
        have found : next.heap.load start.heap.length =
            some ⟨UInt32.ofInt time + start.timer.time, callback, cancel, id⟩ := by
          rw [allocs, Heap.load_alloc_self]
        apply Life.live found rfl
        · rw [calledNodes_append, callsNone, List.append_nil]
          exact fun called => Nat.lt_irrefl _ (known _ (.inl called))
        · rw [freedNodes_append, freesNone, List.append_nil]
          exact fun freed => Nat.lt_irrefl _ (known _ (.inr freed))
  have life := reachedNext.since
    (fun later state seen => Life start.heap.length (flagAfter cancel start.heap.length later) state seen)
    born (fun _ _ _ _ _ _ _ _ life taken => life.step taken) exec
  cases life with
  | live _ _ _ notFreed => exact absurd dispatched notFreed
  | ended _ _ called =>
      rw [called, flagAfter]
      by_cases deleted : .delTimer start.heap.length ∈ after
      · simp [deleted]
      · simp [deleted]

/-- A timer that is deleted before it is due. -/
def deleteOne : List Call := [.delTimer 0, .timerUpdate, .run, .run, .run, .run, .run]

theorem deleteOne_notCalled :
    ∃ world events, machine.Exec (.addTimer 1 0 0 0 :: deleteOne) world events ∧
      0 ∈ freedNodes events ∧ (0 ∈ calledNodes events ↔ .delTimer 0 ∉ deleteOne) := by
  have ran := machine.exec_of_isSome (.addTimer 1 0 0 0 :: deleteOne) rfl
  refine ⟨_, _, ran, by decide, ?_⟩
  exact (@calledUnlessDeleted_iff [] deleteOne 1 0 0 0 _ _ _ _ (by decide) .start ran (by decide)).mpr
    (.inl rfl)

/-- Nobody deletes this timer, but `malloc` left a one in its `cancel`. -/
theorem leftover_notCalled :
    ∃ world events,
      machine.Exec (.addTimer 1 0 0 1 :: [.timerUpdate, .run, .run, .run, .run, .run]) world events ∧
      0 ∈ freedNodes events ∧
      ¬ (0 ∈ calledNodes events ↔ .delTimer 0 ∉ [Call.timerUpdate, .run, .run, .run, .run, .run]) := by
  refine ⟨_, _, machine.exec_of_isSome
    (.addTimer 1 0 0 1 :: [.timerUpdate, .run, .run, .run, .run, .run]) rfl, by decide, by decide⟩

end SimpleBasicComponents.TimeWheel
